import Relis.Paging.Tables

/-!
# Mapping and unmapping one page

`arch_map_page` goes down one path: it may add tables and user bits on the way, and it
writes one last-level entry.
-/

open Relis.Bytes Relis.Run Relis.Code Relis.PageAlloc

namespace Relis.Paging

variable {v : BitVec 64}

def pagesOn (V : List Nat → Prop) (m : Mem) (r : BitVec 64) : Set Nat :=
  {k | ∃ q x, V q ∧ q.length ≤ 3 ∧ node m r q = some x ∧ k = pageOf x}

abbrev userPages (m : Mem) (r : BitVec 64) : Set Nat := pagesOn UserPath m r

variable {V : List Nat → Prop} {s s' s1 : Mm} {roots : Set (BitVec 64)}
  {r t virt u : BitVec 64} {n : Nat}

/-! ## The way down -/

/-- `s1` is `s` after the first `n` levels of `arch_map_page`. -/
structure Ensured (V : List Nat → Prop) (s s1 : Mm) (roots : Set (BitVec 64)) (r virt u : BitVec 64)
  (n : Nat) : Prop where
  tables : Forest V s1 roots
  slots : ∀ r' ∈ roots, ∀ q j, V q → q.length ≤ 3 → j < 512 →
    ¬ (r' = r ∧ q.length < n ∧ q ++ [j] = pathOf virt (q.length + 1)) →
    slot s1.mem r' q j = slot s.mem r' q j
  path : ∀ k < n, EnsuredEntry s (slot s.mem r (pathOf virt k) (indexOf virt k)) u
    (slot s1.mem r (pathOf virt k) (indexOf virt k))
  only : Only (pagesOn V s.mem r) s s1

theorem ensured_zero (hT : Forest V s roots) : Ensured V s s roots r virt u 0 :=
  ⟨hT, fun _ _ _ _ _ _ _ _ => rfl, by omega, Only.refl _ _⟩

theorem pathOf_succ_user (h : UserHalf v) (n : Nat) : UserPath (pathOf v n ++ [indexOf v n]) := by
  rw [← pathOf_succ]
  exact pathOf_user h (n + 1)

variable [PathKind V]

theorem PathKind.pathOf (h : V (pathOf v 4)) (hn : n ≤ 4) : V (pathOf v n) := by
  apply PathKind.of_prefix _ _ _ h
  unfold Paging.pathOf
  rw [← Nat.add_sub_cancel' hn, List.range_add, List.map_append]
  exact List.prefix_append _ _

theorem PathKind.snoc (h : V (Paging.pathOf v 4)) (hn : n ≤ 3) :
    V (Paging.pathOf v n ++ [indexOf v n]) := by
  rw [← pathOf_succ]
  exact PathKind.pathOf h (by omega)

theorem snoc_eq_pathOf {q : List Nat} {j : Nat}
    (h : q ++ [j] = pathOf v (q.length + 1)) : q = pathOf v q.length ∧ j = indexOf v q.length := by
  rw [pathOf_succ] at h
  obtain ⟨h1, h2⟩ := List.append_inj' h rfl
  exact ⟨h1, by simpa using h2⟩

theorem EnsuredEntry.mono {old e : BitVec 64} (h : EnsuredEntry s1 old u e)
    (hsub : freePages s1.pmm ⊆ freePages s.pmm) : EnsuredEntry s old u e := by
  rcases h with h | ⟨ha, f, haddr, hf, he⟩
  · exact .inl h
  · exact .inr ⟨ha, f, haddr, hsub hf, he⟩

theorem Ensured.table_page (h : Ensured V s s1 roots r virt u n) (hu : UserFlag u)
    (hv : V (pathOf virt 4)) (hn : n ≤ 3) (ht : node s1.mem r (pathOf virt n) = some t) :
    pageOf t ∈ pagesOn V s.mem r ∨ pageOf t ∈ freePages s.pmm := by
  cases n with
  | zero =>
    left
    exact ⟨[], t, PathKind.pathOf hv (Nat.zero_le 4), by simp, by simpa [pathOf, node_nil] using ht, rfl⟩
  | succ n =>
    rw [pathOf_succ, node_of_slot, pathOf_length] at ht
    rcases h.path n (by omega) with ⟨hp, he⟩ | ⟨-, f, haddr, hf, he⟩
    · -- The entry was there, so it still leads to the same table.
      left
      refine ⟨pathOf virt (n + 1), t, PathKind.pathOf hv (by omega), by simp [hn], ?_, rfl⟩
      rw [pathOf_succ, node_of_slot, pathOf_length, ← ht, he, child_or_user hu]
    · right
      rw [he, child_tableEntry haddr hu, Option.some.injEq] at ht
      rwa [← ht]

theorem Ensured.only_next (h : Ensured V s s1 roots r virt u n) (hu : UserFlag u)
    (hv : V (pathOf virt 4)) (hn : n ≤ 3) (ht : node s1.mem r (pathOf virt n) = some t)
    (honly : Only {pageOf t} s1 s') : Only (pagesOn V s.mem r) s s' := by
  apply h.only.trans_into honly
  rintro k rfl
  exact h.table_page hu hv hn ht

theorem ensured_succ (h : Ensured V s s1 roots r virt u n) (hr : r ∈ roots) (hv : V (pathOf virt 4))
    (hu : UserFlag u) (hn : n ≤ 2) (ht : node s1.mem r (pathOf virt n) = some t)
    (hstep : ensure_table s1 t (indexOf virt n) u = .ok s') :
    Ensured V s s' roots r virt u (n + 1) ∧
      node s'.mem r (pathOf virt (n + 1)) = some
        (pte_addr (table_get s'.mem t (indexOf virt n))) := by
  have hpath := PathKind.snoc hv (show n ≤ 3 by omega)
  obtain ⟨e, he, hput, honly⟩ :=
    ensure_table_spec h.tables hr hpath (by simpa using hn) ht hu hstep
  have hold : slot s1.mem r (pathOf virt n) (indexOf virt n) =
      slot s.mem r (pathOf virt n) (indexOf virt n) := by
    apply h.slots r hr _ _ (PathKind.init hpath) (by simp; omega) (PathKind.index_lt hpath)
    simp
  have hnew : slot s'.mem r (pathOf virt n) (indexOf virt n) = e := by
    rw [hput.slots r hr _ _ (PathKind.init hpath) (by simp; omega) (PathKind.index_lt hpath),
      if_pos ⟨rfl, rfl, rfl⟩]
  refine ⟨⟨hput.tables, ?_, ?_, h.only_next hu hv (by omega) ht honly⟩, ?_⟩
  · intro r' hr' q j hq hqn hj hoff
    rw [hput.slots r' hr' q j hq hqn hj, if_neg, h.slots r' hr' q j hq hqn hj]
    · rintro ⟨h1, h2, h3⟩
      exact hoff ⟨h1, by omega, h3⟩
    · rintro ⟨h1, rfl, rfl⟩
      refine hoff ⟨h1, by simp, ?_⟩
      rw [pathOf_length, pathOf_succ]
  · intro k hk
    by_cases hkn : k = n
    · subst hkn
      rw [hnew, ← hold]
      exact he.mono h.only.free
    · have hkpath := PathKind.snoc hv (show k ≤ 3 by omega)
      rw [hput.slots r hr _ _ (PathKind.init hkpath) (by simp; omega) (PathKind.index_lt hkpath), if_neg]
      · exact h.path k (by omega)
      · rintro ⟨-, hlen, -⟩
        have := congrArg List.length hlen
        simp at this
        omega
  · have htable := hput.keeps r hr _ t (PathKind.init hpath) (by simp; omega) ht
    rw [pathOf_succ]
    apply hput.tables.node_next hr hpath htable
    rw [← slot_of_node htable, hnew]
    exact he.present

/-! ## `arch_map_page` -/

def userFlag (flags : BitVec 64) : BitVec 64 := if has flags PTE_USER then PTE_USER else 0

theorem userFlag_cases (flags : BitVec 64) : UserFlag (userFlag flags) := by
  unfold userFlag
  split_ifs
  · exact .inl rfl
  · exact .inr rfl

structure MappedOn (V : List Nat → Prop) (s s' : Mm) (roots : Set (BitVec 64))
  (r virt phys flags : BitVec 64) : Prop where
  tables : Forest V s' roots
  slots : ∀ r' ∈ roots, ∀ q j, V q → q.length ≤ 3 → j < 512 →
    ¬ (r' = r ∧ q ++ [j] = pathOf virt (q.length + 1)) → slot s'.mem r' q j = slot s.mem r' q j
  path : ∀ k < 3, EnsuredEntry s (slot s.mem r (pathOf virt k) (indexOf virt k)) (userFlag flags)
    (slot s'.mem r (pathOf virt k) (indexOf virt k))
  leaf : slot s'.mem r (pathOf virt 3) (indexOf virt 3) = pageEntry phys flags
  only : Only (pagesOn V s.mem r) s s'

abbrev Mapped (s s' : Mm) (roots : Set (BitVec 64)) (r virt phys flags : BitVec 64) : Prop :=
  MappedOn UserPath s s' roots r virt phys flags

variable {phys flags : BitVec 64}

theorem arch_map_page_spec (hT : Forest V s roots) (hr : r ∈ roots) (hpgd : s.current_pgd = some r)
    (hv : V (pathOf virt 4)) (h : arch_map_page s virt phys flags = .ok s') :
    MappedOn V s s' roots r virt phys flags := by
  have hu := userFlag_cases flags
  unfold arch_map_page at h
  rw [hpgd] at h
  simp only [bind_ok] at h
  obtain ⟨s1, h1, s2, h2, s3, h3, h⟩ := h
  cases h
  obtain ⟨e1, n1⟩ := ensured_succ (ensured_zero hT) hr hv hu (by omega) (node_nil s.mem r) h1
  obtain ⟨e2, n2⟩ := ensured_succ e1 hr hv hu (by omega) n1 h2
  obtain ⟨e3, n3⟩ := ensured_succ e2 hr hv hu (by omega) n2 h3
  have hpath := PathKind.snoc hv (le_refl 3)
  have hput := put_leaf e3.tables hr hpath (by simp) n3 (pageEntry phys flags)
  have honly := only_table_set s3 (pageEntry phys flags) (e3.tables.node_aligned hr n3)
    (PathKind.index_lt hpath)
  refine ⟨hput.tables, ?_, ?_, ?_, e3.only_next hu hv (by omega) n3 honly⟩
  · intro r' hr' q j hq hqn hj hoff
    have hold := e3.slots r' hr' q j hq hqn hj (fun h => hoff ⟨h.1, h.2.2⟩)
    rw [← hold]
    have hslot := hput.slots r' hr' q j hq hqn hj
    rw [if_neg] at hslot
    · exact hslot
    · rintro ⟨h1, rfl, rfl⟩
      exact hoff ⟨h1, by rw [pathOf_length]; exact (pathOf_succ virt 3).symm⟩
  · intro k hk
    have hkpath := PathKind.snoc hv (show k ≤ 3 by omega)
    have hslot := hput.slots r hr _ _ (PathKind.init hkpath) (by simp; omega) (PathKind.index_lt hkpath)
    rw [if_neg] at hslot
    · have hold := e3.path k hk
      rw [← hslot] at hold
      exact hold
    · rintro ⟨-, hlen, -⟩
      have := congrArg List.length hlen
      simp at this
      omega
  · have hslot := hput.slots r hr _ _ (PathKind.init hpath) (by simp) (PathKind.index_lt hpath)
    rw [if_pos ⟨rfl, rfl, rfl⟩] at hslot
    exact hslot

theorem MappedOn.pages_subset (h : MappedOn V s s' roots r virt phys flags) (hr : r ∈ roots) :
    pagesOn V s'.mem r ⊆ pagesOn V s.mem r ∪ freePages s.pmm := by
  rintro k ⟨q, x, hq, hn, hx, rfl⟩
  rcases List.eq_nil_or_concat' q with rfl | ⟨q, j, rfl⟩
  · rw [node_nil] at hx
    exact .inl ⟨[], x, hq, by simp, by rwa [node_nil], rfl⟩
  rw [List.length_append, List.length_singleton] at hn
  rw [node_of_slot] at hx
  have hold : child q.length (slot s.mem r q j) = some x → pageOf x ∈ pagesOn V s.mem r := by
    intro hchild
    refine ⟨q ++ [j], x, hq, by simpa using hn, ?_, rfl⟩
    rwa [node_of_slot]
  by_cases hon : q ++ [j] = pathOf virt (q.length + 1)
  · obtain ⟨h1, h2⟩ := snoc_eq_pathOf hon
    have hpath := h.path q.length (by omega)
    rw [← h1, ← h2] at hpath
    rcases hpath with ⟨-, he⟩ | ⟨-, f, haddr, hf, he⟩
    · rw [he, child_or_user (userFlag_cases flags)] at hx
      exact .inl (hold hx)
    · rw [he, child_tableEntry haddr (userFlag_cases flags), Option.some.injEq] at hx
      rw [← hx]
      exact .inr hf
  · rw [h.slots r hr q j (PathKind.init hq) (by omega) (PathKind.index_lt hq) (fun h => hon h.2)] at hx
    exact .inl (hold hx)

/-! ## What is written -/

theorem ensure_table_samePage {i k : Nat} (ht : Aligned t) (hi : i < 512) (hu : UserFlag u)
    (h : ensure_table s t i u = .ok s') (hk : k ≠ pageOf t)
    (hbelow : k ≠ pageOf (pte_addr (table_get s'.mem t i))) : SamePage s.mem s'.mem k := by
  unfold ensure_table at h
  split_ifs at h with hpres
  · obtain ⟨⟨f, s1⟩, halloc, h⟩ := bind_ok.mp h
    cases h
    have hnew := alloc_page_new halloc
    have haddr := (child_eq_some (child_tableEntry hnew.addr hu 0)).1
    unfold tableEntry at haddr
    rw [table_get_set s1 _ ht ht hi hi, if_pos ⟨rfl, rfl⟩, ← haddr] at hbelow
    exact (hnew.same k hbelow).trans (samePage_table_set s1 _ ht hi hk)
  · cases h
    exact samePage_table_set s _ ht hi hk

theorem ensure_table_keeps (hT : Forest V s roots) (hr : r ∈ roots) (hv : V (pathOf virt 4))
    (hu : UserFlag u) (hn : n ≤ 2) (ht : node s.mem r (pathOf virt n) = some t)
    (h : ensure_table s t (indexOf virt n) u = .ok s') {j : Nat} (hj : j ≤ 3) {x : BitVec 64}
    (hx : node s.mem r (pathOf virt j) = some x) : node s'.mem r (pathOf virt j) = some x := by
  obtain ⟨e, -, hput, -⟩ := ensure_table_spec hT hr (PathKind.snoc hv (by omega))
    (by simpa using hn) ht hu h
  exact hput.keeps r hr _ x (PathKind.pathOf hv (by omega)) (by simpa using hj) hx

theorem arch_map_page_samePage {k : Nat} (hT : Forest V s roots) (hr : r ∈ roots)
    (hpgd : s.current_pgd = some r) (hv : V (pathOf virt 4))
    (h : arch_map_page s virt phys flags = .ok s')
    (hk : ∀ n ≤ 3, ∀ t, node s'.mem r (pathOf virt n) = some t → k ≠ pageOf t) :
    SamePage s.mem s'.mem k := by
  have hu := userFlag_cases flags
  unfold arch_map_page at h
  rw [hpgd] at h
  simp only [bind_ok] at h
  obtain ⟨s1, h1, s2, h2, s3, h3, h⟩ := h
  cases h
  have n0 := node_nil s.mem r
  obtain ⟨e1, n1⟩ := ensured_succ (ensured_zero hT) hr hv hu (by omega) n0 h1
  obtain ⟨e2, n2⟩ := ensured_succ e1 hr hv hu (by omega) n1 h2
  obtain ⟨e3, n3⟩ := ensured_succ e2 hr hv hu (by omega) n2 h3
  have hpath := PathKind.snoc hv (le_refl 3)
  have hput := put_leaf e3.tables hr hpath (by simp) n3 (pageEntry phys flags)
  -- The tables of the earlier levels are still there at the end.
  have keep3 : ∀ j ≤ 3, ∀ x, node s3.mem r (pathOf virt j) = some x → k ≠ pageOf x := fun j hj x hx =>
    hk j hj x (hput.keeps r hr _ x (PathKind.pathOf hv (by omega)) (by simpa using hj) hx)
  have keep2 : ∀ j ≤ 3, ∀ x, node s2.mem r (pathOf virt j) = some x → k ≠ pageOf x := fun j hj x hx =>
    keep3 j hj x (ensure_table_keeps e2.tables hr hv hu (le_refl 2) n2 h3 hj hx)
  have keep1 : ∀ j ≤ 3, ∀ x, node s1.mem r (pathOf virt j) = some x → k ≠ pageOf x := fun j hj x hx =>
    keep2 j hj x (ensure_table_keeps e1.tables hr hv hu (by omega) n1 h2 hj hx)
  have k1 := keep1 1 (by omega) _ n1
  have k2 := keep2 2 (by omega) _ n2
  have k3 := keep3 3 (le_refl 3) _ n3
  have k0 : k ≠ pageOf r := keep1 0 (by omega) r (node_nil _ _)
  refine (ensure_table_samePage (hT.aligned r hr) (index_lt _) hu h1 k0 k1).trans ?_
  refine (ensure_table_samePage (addr_aligned _) (index_lt _) hu h2 k1 k2).trans ?_
  refine (ensure_table_samePage (addr_aligned _) (index_lt _) hu h3 k2 k3).trans ?_
  exact samePage_table_set s3 _ (addr_aligned _) (index_lt _) k3

/-! ## `walk_page_table` -/

theorem node_next_of_none (m : Mem) {p : List Nat} (h : node m r p = none) (i : Nat) :
    node m r (p ++ [i]) = none := by
  rw [node_snoc, h, Option.bind_none]

theorem Forest.walk_next {i : Nat} (hT : Forest V s roots) (hr : r ∈ roots) (hv : V (pathOf v 4))
    (hn : n ≤ 3) (ht : node s.mem r (pathOf v n) = some t) (hi : indexOf v n = i) :
    node s.mem r (pathOf v (n + 1)) =
      if has (table_get s.mem t i) PTE_PRESENT then some
        (pte_addr (table_get s.mem t i)) else none := by
  subst hi
  rw [pathOf_succ]
  split_ifs with hp
  · exact hT.node_next hr (PathKind.snoc hv hn) ht hp
  · rw [node_snoc, ht, Option.bind_some]
    exact child_of_absent (by simpa using hp)

theorem walk_page_table_aligned {pte : Nat} (h : walk_page_table s v = some pte) :
    ∃ t, Aligned t ∧ pte = t.toNat + 8 * pte_index v := by
  unfold walk_page_table at h
  cases hpgd : s.current_pgd with
  | none =>
    rw [hpgd] at h
    cases h
  | some pgd =>
    rw [hpgd] at h
    simp only [Option.bind_eq_bind, Option.bind_some, Option.bind_eq_some_iff] at h
    obtain ⟨-, -, -, -, -, -, h⟩ := h
    cases h
    exact ⟨_, addr_aligned _, rfl⟩

theorem walk_page_table_spec (hT : Forest V s roots) (hr : r ∈ roots)
    (hpgd : s.current_pgd = some r) (hv : V (pathOf v 4)) :
    walk_page_table s v = (node s.mem r (pathOf v 3)).map fun t => t.toNat + 8 * pte_index v := by
  have n1 := hT.walk_next (n := 0) (i := pgd_index v) hr hv (by omega) (node_nil s.mem r) rfl
  unfold walk_page_table
  rw [hpgd]
  by_cases h1 : has (table_get s.mem r (pgd_index v)) PTE_PRESENT = true
  swap
  · rw [if_neg h1] at n1
    have n3 := node_next_of_none _ (node_next_of_none _ n1 (indexOf v 1)) (indexOf v 2)
    rw [← pathOf_succ, ← pathOf_succ] at n3
    simp [n3, h1]
  rw [if_pos h1] at n1
  have n2 := hT.walk_next (i := pud_index v) hr hv (by omega) n1 rfl
  by_cases h2 : has (table_get s.mem (pte_addr (table_get s.mem r (pgd_index v))) (pud_index v))
      PTE_PRESENT = true
  swap
  · rw [if_neg h2] at n2
    have n3 := node_next_of_none _ n2 (indexOf v 2)
    rw [← pathOf_succ] at n3
    simp [n3, h1, h2]
  rw [if_pos h2] at n2
  have n3 := hT.walk_next (i := pmd_index v) hr hv (by omega) n2 rfl
  simp only [Nat.reduceAdd] at n3
  by_cases h3 : has (table_get s.mem (pte_addr (table_get s.mem (pte_addr (table_get s.mem r
      (pgd_index v))) (pud_index v))) (pmd_index v)) PTE_PRESENT = true
  · simp [n3, h1, h2, h3]
  · simp [n3, h1, h2, h3]

def walkEntry (s : Mm) (v : BitVec 64) : Option (BitVec 64) :=
  (walk_page_table s v).map (read64 s.mem)

theorem walkEntry_spec (hT : Forest V s roots) (hr : r ∈ roots)
    (hpgd : s.current_pgd = some r) (hv : V (pathOf v 4)) :
    walkEntry s v = (node s.mem r (pathOf v 3)).map fun t => table_get s.mem t (indexOf v 3) := by
  unfold walkEntry
  rw [walk_page_table_spec hT hr hpgd hv, Option.map_map]
  rfl

/-! ## `paging_unmap_page` -/

structure UnmappedOn (V : List Nat → Prop) (s s' : Mm) (roots : Set (BitVec 64))
  (r virt : BitVec 64) : Prop where
  tables : Forest V s' roots
  slots : ∀ r' ∈ roots, ∀ q j, V q → q.length ≤ 3 → j < 512 →
    ¬ (r' = r ∧ q = pathOf virt 3 ∧ j = indexOf virt 3) → slot s'.mem r' q j = slot s.mem r' q j
  leaf : slot s'.mem r (pathOf virt 3) (indexOf virt 3) =
    if has (slot s.mem r (pathOf virt 3) (indexOf virt 3)) PTE_PRESENT then 0
    else slot s.mem r (pathOf virt 3) (indexOf virt 3)
  only : Only (pagesOn V s.mem r) s s'

theorem paging_unmap_page_eq (hT : Forest V s roots) (hr : r ∈ roots) (hpgd : s.current_pgd = some r)
    (hv : V (pathOf virt 4)) :
    paging_unmap_page s virt = match node s.mem r (pathOf virt 3) with
      | none => s
      | some t => if has (table_get s.mem t (indexOf virt 3)) PTE_PRESENT then
          table_set s t (indexOf virt 3) 0 else s := by
  unfold paging_unmap_page
  rw [walk_page_table_spec hT hr hpgd hv]
  cases node s.mem r (pathOf virt 3) <;> rfl

theorem paging_unmap_page_spec (hT : Forest V s roots) (hr : r ∈ roots)
    (hpgd : s.current_pgd = some r) (hv : V (pathOf virt 4)) :
    UnmappedOn V s (paging_unmap_page s virt) roots r virt := by
  have hpath := PathKind.snoc hv (le_refl 3)
  rw [paging_unmap_page_eq hT hr hpgd hv]
  cases hn : node s.mem r (pathOf virt 3) with
  | none =>
    refine ⟨hT, fun _ _ _ _ _ _ _ _ => rfl, ?_, Only.refl _ _⟩
    dsimp only
    rw [slot_of_none hn, zero_has, if_neg (by decide)]
  | some t =>
    have hslot := slot_of_node hn (indexOf virt 3)
    dsimp only
    split_ifs with hp
    · have hput := put_leaf hT hr hpath (by simp) hn 0
      have honly := only_table_set s 0 (hT.node_aligned hr hn) (PathKind.index_lt hpath)
      refine ⟨hput.tables, ?_, ?_, honly.mono ?_⟩
      · intro r' hr' q j hq hqn hj hoff
        rw [hput.slots r' hr' q j hq hqn hj, if_neg hoff]
      · rw [hslot, if_pos hp, hput.slots r hr _ _ (PathKind.init hpath) (by simp)
          (PathKind.index_lt hpath), if_pos ⟨rfl, rfl, rfl⟩]
      · rintro k rfl
        exact ⟨_, t, (PathKind.init hpath), by simp, hn, rfl⟩
    · refine ⟨hT, fun _ _ _ _ _ _ _ _ => rfl, ?_, Only.refl _ _⟩
      rw [hslot, if_neg hp]

end Relis.Paging
