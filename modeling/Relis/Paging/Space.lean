import Mathlib.Order.BourbakiWitt
import Mathlib.Order.CompletePartialOrder
import Relis.Paging.Map

/-!
# New address spaces

A new root shares the kernel half of the current one and has an empty user half.
-/

open Relis.Bytes Relis.Run Relis.Code Relis.PageAlloc

namespace Relis.Paging

variable {V : List Nat → Prop} {s s' : Mm} {roots : Set (BitVec 64)} {r t old new : BitVec 64}
  {m m' : Mem} {p : List Nat} {r' v : BitVec 64} {i : Nat}

/-! ## Steps that touch no table -/

theorem pagesOn_congr (h : ∀ q, V q → q.length ≤ 3 → node m' r q = node m r q) :
    pagesOn V m' r = pagesOn V m r := by
  ext k
  constructor
  · rintro ⟨q, x, hq, hn, hx, rfl⟩
    exact ⟨q, x, hq, hn, h q hq hn ▸ hx, rfl⟩
  · rintro ⟨q, x, hq, hn, hx, rfl⟩
    exact ⟨q, x, hq, hn, (h q hq hn).trans hx, rfl⟩

def SameOn (V : List Nat → Prop) (m m' : Mem) (r : BitVec 64) : Prop :=
  ∀ p i t, V (p ++ [i]) → p.length ≤ 3 → node m r p = some t → table_get m' t i = table_get m t i

theorem SameOn.node [PathKind V] (h : SameOn V m m' r) (hp : V p) (hn : p.length ≤ 4) :
    node m' r p = node m r p := by
  apply Radix.node_congr
  intro q i t hq ht
  have hlen := hq.length_le
  rw [List.length_append, List.length_singleton] at hlen
  rw [h q i t (PathKind.of_prefix _ _ hq hp) (by omega) ht]

theorem SameOn.slot [PathKind V] (h : SameOn V m m' r) (hp : V (p ++ [i]))
    (hn : p.length ≤ 3) : slot m' r p i = slot m r p i := by
  have hnode := h.node (PathKind.init hp) (by omega)
  cases ht : Paging.node m r p with
  | none =>
    rw [ht] at hnode
    rw [slot_of_none hnode, slot_of_none ht]
  | some t =>
    rw [ht] at hnode
    rw [slot_of_node hnode, slot_of_node ht, h p i t hp hn ht]

theorem SameOn.pagesOn [PathKind V] (h : SameOn V m m' r) :
    Paging.pagesOn V m' r = Paging.pagesOn V m r :=
  pagesOn_congr fun _ hq hn => h.node hq (by omega)

theorem SameOn.forest [PathKind V] (hT : Forest V s roots)
    (h : ∀ r ∈ roots, SameOn V s.mem s'.mem r)
    (hused : ∀ r ∈ roots, ∀ k ∈ Paging.pagesOn V s.mem r, s.pmm.page_used k = true →
      s'.pmm.page_used k = true) : Forest V s' roots := by
  refine ⟨hT.aligned, ?_, ?_, ?_⟩
  · intro r1 h1 r2 h2 p1 p2 x hp1 hp2 hn1 hn2 hx1 hx2
    have e1 := (h r1 h1).node hp1 (by omega)
    have e2 := (h r2 h2).node hp2 (by omega)
    unfold Paging.node at e1 e2
    rw [e1] at hx1
    rw [e2] at hx2
    exact hT.unshared r1 h1 r2 h2 p1 p2 x hp1 hp2 hn1 hn2 hx1 hx2
  · intro r hr p t hp hn ht
    rw [(h r hr).node hp (by omega)] at ht
    exact hused r hr _ ⟨p, t, hp, hn, ht, rfl⟩ (hT.used r hr p t hp hn ht)
  · intro r hr p i hp hn hpres
    rw [(h r hr).slot hp (by omega)] at hpres ⊢
    exact hT.small r hr p i hp hn hpres

theorem Forest.of_mem [PathKind V] (hT : Forest V s roots) (hmem : s'.mem = s.mem)
    (hused : ∀ r ∈ roots, ∀ k ∈ pagesOn V s.mem r, s.pmm.page_used k = true →
      s'.pmm.page_used k = true) : Forest V s' roots := by
  apply SameOn.forest hT _ hused
  intro r _ p i t _ _ _
  rw [hmem]

section Only

variable {W : Set Nat} (hT : Forest V s roots) (h : Only W s s')
  (hW : ∀ r ∈ roots, Disjoint (pagesOn V s.mem r) W)

include hT h hW

theorem Forest.table_get_only (hr : r ∈ roots) (hp : V p) (hn : p.length ≤ 3)
    (ht : node s.mem r p = some t) (hi : i < 512) : table_get s'.mem t i = table_get s.mem t i := by
  have hpage : pageOf t ∈ pagesOn V s.mem r := ⟨p, t, hp, hn, ht, rfl⟩
  exact (h.same _ (hT.not_free hr hp hn ht) (Set.disjoint_left.mp (hW r hr) hpage)).table_get
    (hT.node_aligned hr ht) hi

variable [PathKind V]

theorem Forest.sameOn (hr : r ∈ roots) : SameOn V s.mem s'.mem r :=
  fun _ _ _ hp hn ht => hT.table_get_only h hW hr (PathKind.init hp) hn ht (PathKind.index_lt hp)

theorem Forest.node_only (hr : r ∈ roots) (hp : V p) (hn : p.length ≤ 4) :
    node s'.mem r p = node s.mem r p :=
  (hT.sameOn h hW hr).node hp hn

theorem Forest.slot_only (hr : r ∈ roots) (hp : V p) (hn : p.length ≤ 3)
    (hi : i < 512) : slot s'.mem r p i = slot s.mem r p i := by
  have hnode := hT.node_only h hW hr hp (by omega)
  cases ht : node s.mem r p with
  | none =>
    rw [ht] at hnode
    rw [slot_of_none hnode, slot_of_none ht]
  | some t =>
    rw [ht] at hnode
    rw [slot_of_node hnode, slot_of_node ht, hT.table_get_only h hW hr hp hn ht hi]

theorem Forest.pagesOn_only (hr : r ∈ roots) : pagesOn V s'.mem r = pagesOn V s.mem r :=
  (hT.sameOn h hW hr).pagesOn

theorem Forest.of_only : Forest V s' roots :=
  SameOn.forest hT (fun _ hr => hT.sameOn h hW hr) fun _ _ _ _ hused => h.used _ hused

end Only

theorem Forest.mono {V' : List Nat → Prop} (hT : Forest V s roots) (hsub : ∀ p, V' p → V p) :
    Forest V' s roots := by
  refine ⟨hT.aligned, ?_, ?_, ?_⟩
  · intro r1 h1 r2 h2 p1 p2 x hp1 hp2
    exact hT.unshared r1 h1 r2 h2 p1 p2 x (hsub _ hp1) (hsub _ hp2)
  · exact fun r hr p t hp => hT.used r hr p t (hsub _ hp)
  · exact fun r hr p i hp => hT.small r hr p i (hsub _ hp)

theorem Forest.single (hT : Forest V s roots) (hr : r ∈ roots) : Forest V s {r} := by
  have hsub : ∀ x ∈ ({r} : Set (BitVec 64)), x ∈ roots := fun x hx => hx ▸ hr
  exact ⟨fun x hx => hT.aligned x (hsub x hx), fun x hx y hy => hT.unshared x (hsub x hx) y (hsub y hy),
    fun x hx => hT.used x (hsub x hx), fun x hx => hT.small x (hsub x hx)⟩

/-! ## `create_new_address_space` -/

theorem copy_kernel_half_spec (hold : Aligned old) (hnew : Aligned new)
    (h : copy_kernel_half old new s = .ok s') :
    s'.pmm = s.pmm ∧ Only {pageOf new} s s' ∧ ∀ i < 512, table_get s'.mem new i =
      if 256 ≤ i then table_get s.mem old i else table_get s.mem new i := by
  have hinv := loop_inv (fun n s1 => s1.pmm = s.pmm ∧ Only {pageOf new} s s1 ∧
    (∀ i < 512, table_get s1.mem new i =
      if 256 ≤ i ∧ i < n then table_get s.mem old i else table_get s.mem new i) ∧
    ∀ i < 512, n ≤ i → table_get s1.mem old i = table_get s.mem old i) ?_ ?_ h
  · obtain ⟨hpmm, honly, hget, -⟩ := hinv
    refine ⟨hpmm, honly, ?_⟩
    intro i hi
    rw [hget i hi]
    simp [hi]
  · rintro n s1 s2 hlo hhi ⟨hpmm, honly, hget, hrest⟩ hbody
    cases hbody
    refine ⟨hpmm, honly.trans (only_table_set s1 _ hnew (by omega)), ?_, ?_⟩
    · intro i hi
      rw [table_get_set s1 _ hnew hnew (by omega) hi, hget i hi, hrest n (by omega) (le_refl n)]
      by_cases hin : i = n
      · subst hin
        rw [if_pos ⟨rfl, rfl⟩, if_pos (by omega)]
      · rw [if_neg (by simp [hin])]
        exact if_congr (by omega) rfl rfl
    · -- Where the two tables are the same one, the copied entry is behind `n`.
      intro i hi hni
      rw [table_get_set s1 _ hnew hold (by omega) hi, if_neg (by omega), hrest i hi (by omega)]
  · refine ⟨rfl, Only.refl _ _, ?_, fun _ _ _ => rfl⟩
    intro i hi
    rw [if_neg (by omega)]

theorem copy_kernel_half_ok (old new : BitVec 64) (s : Mm) :
    ∃ s', copy_kernel_half old new s = .ok s' := by
  cases hloop : copy_kernel_half old new s with
  | ok s' => exact ⟨s', rfl⟩
  | error e => exact absurd hloop (loop_error (fun i s h => by cases h))

structure Created (s s' : Mm) (r : BitVec 64) : Prop where
  aligned : Aligned r
  addr : pte_addr r = r
  was_free : pageOf r ∈ freePages s.pmm
  used : s'.pmm.page_used (pageOf r) = true
  only : Only ∅ s s'
  user : ∀ i < 256, table_get s'.mem r i = 0
  kernel : pageOf (pte_addr s.cr3) ∉ freePages s.pmm → ∀ i, 256 ≤ i → i < 512 →
    table_get s'.mem r i = table_get s.mem (pte_addr s.cr3) i

theorem create_new_address_space_spec (h : create_new_address_space s = .ok (r, s')) :
    Created s s' r := by
  unfold create_new_address_space at h
  rw [bind_ok] at h
  obtain ⟨⟨f, s1⟩, halloc, h⟩ := h
  rw [bind_ok] at h
  obtain ⟨s2, hcopy, h⟩ := h
  cases h
  have hnew := alloc_page_new halloc
  obtain ⟨hpmm, honly, hget⟩ := copy_kernel_half_spec (addr_aligned _) hnew.aligned hcopy
  refine ⟨hnew.aligned, hnew.addr, hnew.was_free, ?_, ?_, ?_, ?_⟩
  · rw [hpmm, hnew.used]
    simp
  · have hboth := (hnew.only.mono (Set.empty_subset _)).trans honly
    refine ⟨hboth.free, hboth.used, ?_, hboth.cr3, hboth.current_pgd⟩
    intro k hk _
    apply hboth.same k hk
    exact hnew.ne_of_not_free hk
  · intro i hi
    rw [hget i (by omega), if_neg (by omega), hnew.table_get_zero (by omega)]
  · intro hres i hlo hhi
    rw [hget i hhi, if_pos hlo, hnew.cr3]
    exact (hnew.same _ (hnew.ne_of_not_free hres)).table_get (addr_aligned _) hhi

theorem create_new_address_space_samePage {k : Nat} (h : create_new_address_space s = .ok (r, s'))
    (hk : k ≠ pageOf r) : SamePage s.mem s'.mem k := by
  unfold create_new_address_space at h
  obtain ⟨⟨f, s1⟩, halloc, h⟩ := bind_ok.mp h
  obtain ⟨s2, hcopy, h⟩ := bind_ok.mp h
  cases h
  have hnew := alloc_page_new halloc
  refine (hnew.same k hk).trans ?_
  refine loop_inv (fun _ s2 => SamePage s1.mem s2.mem k) ?_ (fun _ _ => rfl) hcopy
  rintro i s2 s3 - hi hsame hbody
  cases hbody
  exact hsame.trans (samePage_table_set s2 _ hnew.aligned (by omega) hk)

theorem node_of_empty (h : ∀ i < 256, table_get m r i = 0) (hp : UserPath p) :
    node m r p = if p = [] then some r else none := by
  cases p with
  | nil => rfl
  | cons i p =>
    rw [if_neg (by simp)]
    unfold node
    rw [Radix.node, h i hp.1, child_of_absent (zero_has _), Option.bind_none]

theorem slot_of_empty (h : ∀ i < 256, table_get m r i = 0)
    (hp : UserPath (p ++ [i])) : slot m r p i = 0 := by
  have hnode := node_of_empty h hp.init
  split_ifs at hnode with hnil
  · subst hnil
    rw [slot_of_node hnode, h i hp.1]
  · exact slot_of_none hnode i

structure NewRoot (s s' : Mm) (r : BitVec 64) : Prop where
  aligned : Aligned r
  addr : pte_addr r = r
  only : Only ∅ s s'
  frames : ∀ p t, UserPath p → p.length ≤ 4 → node s'.mem r p = some t →
    pageOf t ∈ freePages s.pmm ∧ s'.pmm.page_used (pageOf t) = true
  inj : ∀ p q t, UserPath p → UserPath q → p.length ≤ 4 → q.length ≤ 4 →
    node s'.mem r p = some t → node s'.mem r q = some t → p = q
  small : ∀ p i, UserPath (p ++ [i]) → p.length = 1 ∨ p.length = 2 →
    has (slot s'.mem r p i) PTE_PRESENT = true → has (slot s'.mem r p i) PTE_HUGE = false

theorem Created.newRoot (h : Created s s' r) : NewRoot s s' r := by
  have hroot : ∀ p x, UserPath p → node s'.mem r p = some x → p = [] ∧ x = r := by
    intro p x hp hx
    rw [node_of_empty h.user hp] at hx
    split_ifs at hx with hnil
    exact ⟨hnil, (Option.some.inj hx).symm⟩
  refine ⟨h.aligned, h.addr, h.only, ?_, ?_, ?_⟩
  · intro p t hp _ ht
    obtain ⟨-, rfl⟩ := hroot p t hp ht
    exact ⟨h.was_free, h.used⟩
  · intro p q t hp hq _ _ hp' hq'
    rw [(hroot p t hp hp').1, (hroot q t hq hq').1]
  · intro p i hp _ hpres
    rw [slot_of_empty h.user hp, zero_has] at hpres
    cases hpres

theorem NewRoot.apart (h : NewRoot s s' r) (hT : Tables s roots) (hr' : r' ∈ roots) {q : List Nat}
    {t x : BitVec 64} (hp : UserPath p) (hn : p.length ≤ 3) (ht : node s'.mem r' p = some t)
    (hq : UserPath q) (hqn : q.length ≤ 4) (hx : node s'.mem r q = some x) :
    pageOf t ≠ pageOf x := by
  intro heq
  rw [hT.node_only h.only (fun _ _ => Set.disjoint_empty _) hr' hp (by omega)] at ht
  apply hT.not_free hr' hp hn ht
  rw [heq]
  exact (h.frames q x hq hqn hx).1

theorem NewRoot.tables (h : NewRoot s s' r) (hT : Tables s roots) : Tables s' (insert r roots) := by
  have hT' := hT.of_only h.only (fun _ _ => Set.disjoint_empty _)
  refine ⟨?_, ?_, ?_, ?_⟩
  · rintro r' (rfl | hr')
    · exact h.aligned
    · exact hT.aligned r' hr'
  · rintro r1 (rfl | h1) r2 (rfl | h2) p1 p2 x hp1 hp2 hn1 hn2 hx1 hx2
    · exact ⟨rfl, h.inj p1 p2 x hp1 hp2 (by omega) (by omega) hx1 hx2⟩
    · exact absurd rfl (h.apart hT h2 hp2 hn2 hx2 hp1 (by omega) hx1)
    · exact absurd rfl (h.apart hT h1 hp1 hn1 hx1 hp2 (by omega) hx2)
    · exact hT'.unshared r1 h1 r2 h2 p1 p2 x hp1 hp2 hn1 hn2 hx1 hx2
  · rintro r' (rfl | hr') p t hp hn ht
    · exact (h.frames p t hp (by omega) ht).2
    · exact hT'.used r' hr' p t hp hn ht
  · rintro r' (rfl | hr') p i hp hn hpres
    · exact h.small p i hp hn hpres
    · exact hT'.small r' hr' p i hp hn hpres

/-! ## The kernel half -/

def KernelReserved (s : Mm) (r : BitVec 64) : Prop :=
  ∀ p t, KernelPath p → p.length ≤ 3 → node s.mem r p = some t → pageOf t ∉ freePages s.pmm

theorem node_pathOf_succ (m : Mem) (r v : BitVec 64) (n : Nat) :
    node m r (pathOf v (n + 1)) = child n (slot m r (pathOf v n) (indexOf v n)) := by
  rw [pathOf_succ, node_of_slot, pathOf_length]

theorem slot_pathOf_succ {n : Nat}
    (hp : has (slot m r (pathOf v n) (indexOf v n)) PTE_PRESENT = true)
    (hs : n = 1 ∨ n = 2 → has (slot m r (pathOf v n) (indexOf v n)) PTE_HUGE = false) :
    slot m r (pathOf v (n + 1)) (indexOf v (n + 1)) =
      table_get m (pte_addr (slot m r (pathOf v n) (indexOf v n))) (indexOf v (n + 1)) := by
  apply slot_of_node
  rw [node_pathOf_succ, child_of_small hp hs]

def walkResult (v : BitVec 64) (e : Nat → BitVec 64) : Option (BitVec 64) :=
  if !has (e 0) PTE_PRESENT then none else
  if !has (e 1) PTE_PRESENT then none else
  if has (e 1) PTE_HUGE then some ((e 1 &&& 0xFFFFFC0000000) ||| (v &&& 0x3FFFFFFF)) else
  if !has (e 2) PTE_PRESENT then none else
  if has (e 2) PTE_HUGE then some ((e 2 &&& 0xFFFFFFFE00000) ||| (v &&& 0x1FFFFF)) else
  if !has (e 3) PTE_PRESENT then none else some (pte_addr (e 3) ||| (v &&& 0xFFF))

theorem translate_slots (m : Mem) (r v : BitVec 64) :
    translate m r v = walkResult v fun n => slot m r (pathOf v n) (indexOf v n) := by
  unfold translate walkResult
  dsimp only
  have e0 : slot m r (pathOf v 0) (indexOf v 0) = table_get m r (pgd_index v) := rfl
  rw [← e0]
  by_cases h0 : has (slot m r (pathOf v 0) (indexOf v 0)) PTE_PRESENT = true
  swap
  · simp [h0]
  have e1 := slot_pathOf_succ h0 (by omega)
  rw [show table_get m (pte_addr (slot m r (pathOf v 0) (indexOf v 0))) (pud_index v) =
    slot m r (pathOf v 1) (indexOf v 1) from e1.symm]
  by_cases h1 : has (slot m r (pathOf v 1) (indexOf v 1)) PTE_PRESENT = true
  swap
  · simp [h1]
  by_cases hh1 : has (slot m r (pathOf v 1) (indexOf v 1)) PTE_HUGE = true
  · simp [hh1]
  have e2 := slot_pathOf_succ h1 (fun _ => by simpa using hh1)
  rw [show table_get m (pte_addr (slot m r (pathOf v 1) (indexOf v 1))) (pmd_index v) =
    slot m r (pathOf v 2) (indexOf v 2) from e2.symm]
  by_cases h2 : has (slot m r (pathOf v 2) (indexOf v 2)) PTE_PRESENT = true
  swap
  · simp [h2]
  by_cases hh2 : has (slot m r (pathOf v 2) (indexOf v 2)) PTE_HUGE = true
  · simp [hh2]
  have e3 := slot_pathOf_succ h2 (fun _ => by simpa using hh2)
  rw [show table_get m (pte_addr (slot m r (pathOf v 2) (indexOf v 2))) (pte_index v) =
    slot m r (pathOf v 3) (indexOf v 3) from e3.symm]

theorem walkResult_congr {e e' : Nat → BitVec 64} (h : ∀ n ≤ 3, e' n = e n) :
    walkResult v e' = walkResult v e := by
  unfold walkResult
  rw [h 0 (by omega), h 1 (by omega), h 2 (by omega), h 3 (by omega)]

theorem translate_congr
    (h : ∀ n ≤ 3, slot m' r' (pathOf v n) (indexOf v n) = slot m r (pathOf v n) (indexOf v n)) :
    translate m' r' v = translate m r v := by
  rw [translate_slots, translate_slots]
  exact walkResult_congr h

theorem permits_congr {user write : Bool}
    (h : ∀ n ≤ 3, slot m' r' (pathOf v n) (indexOf v n) = slot m r (pathOf v n) (indexOf v n)) :
    Permits m' r' v user write ↔ Permits m r v user write := by
  unfold Permits
  rw [translate_congr h]
  refine and_congr_right fun _ => forall₂_congr fun n hn => ?_
  rw [h n hn]

theorem slots_kernel (hroot : ∀ i, 256 ≤ i → i < 512 → table_get m' r' i = table_get m r i)
    (hsame : ∀ p t, KernelPath p → p ≠ [] → p.length ≤ 3 → node m r p = some t →
      SamePage m m' (pageOf t)) (hv : KernelHalf v) {n : Nat} (hn : n ≤ 3) :
    slot m' r' (pathOf v n) (indexOf v n) = slot m r (pathOf v n) (indexOf v n) := by
  induction n with
  | zero => exact hroot _ hv (index_lt _)
  | succ n ih =>
    -- Both walks come to the same table, whose page is the same.
    have hnode : node m' r' (pathOf v (n + 1)) = node m r (pathOf v (n + 1)) := by
      rw [node_pathOf_succ, node_pathOf_succ, ih (by omega)]
    cases ht : node m r (pathOf v (n + 1)) with
    | none =>
      rw [ht] at hnode
      rw [slot_of_none hnode, slot_of_none ht]
    | some t =>
      rw [ht] at hnode
      rw [slot_of_node hnode, slot_of_node ht]
      have hslot := (node_pathOf_succ m r v n).symm.trans ht
      have halign : Aligned t := by
        rw [(child_eq_some hslot).1]
        exact addr_aligned _
      have hne : pathOf v (n + 1) ≠ [] := by
        rw [pathOf_succ]
        simp
      exact (hsame _ t (pathOf_kernel hv _) hne (by simpa using hn) ht).table_get halign (indexOf_lt v _)

theorem translate_kernel (hroot : ∀ i, 256 ≤ i → i < 512 → table_get m' r' i = table_get m r i)
    (hsame : ∀ p t, KernelPath p → p ≠ [] → p.length ≤ 3 → node m r p = some t →
      SamePage m m' (pageOf t)) (hv : KernelHalf v) : translate m' r' v = translate m r v :=
  translate_congr fun _ hn => slots_kernel hroot hsame hv hn

theorem translate_ne_none_iff (m : Mem) (r v : BitVec 64) :
    translate m r v ≠ none ↔
      has (slot m r (pathOf v 0) (indexOf v 0)) PTE_PRESENT = true ∧
      has (slot m r (pathOf v 1) (indexOf v 1)) PTE_PRESENT = true ∧
      (has (slot m r (pathOf v 1) (indexOf v 1)) PTE_HUGE = true ∨
        has (slot m r (pathOf v 2) (indexOf v 2)) PTE_PRESENT = true ∧
        (has (slot m r (pathOf v 2) (indexOf v 2)) PTE_HUGE = true ∨
          has (slot m r (pathOf v 3) (indexOf v 3)) PTE_PRESENT = true)) := by
  rw [translate_slots]
  unfold walkResult
  dsimp only
  split_ifs <;> simp_all

theorem present_above {r t : BitVec 64} {k : Nat} (h : node m r (pathOf v k) = some t)
    {n : Nat} (hn : n < k) : has (slot m r (pathOf v n) (indexOf v n)) PTE_PRESENT = true := by
  induction k generalizing t with
  | zero => omega
  | succ k ih =>
    have hslot := h
    rw [pathOf_succ, node_of_slot] at hslot
    rw [pathOf_succ, node_snoc, Option.bind_eq_some_iff] at h
    obtain ⟨t', ht', -⟩ := h
    by_cases hk : n = k
    · subst hk
      exact (child_eq_some hslot).2
    · exact ih ht' (by omega)

theorem Forest.translate_eq [PathKind V] (hT : Forest V s roots) (hr : r ∈ roots)
    (hv : V (pathOf v 4)) : translate s.mem r v =
      if has (slot s.mem r (pathOf v 3) (indexOf v 3)) PTE_PRESENT then
        some (pte_addr (slot s.mem r (pathOf v 3) (indexOf v 3)) ||| (v &&& 0xFFF))
      else none := by
  have hsmall : ∀ n, n = 1 ∨ n = 2 → has (slot s.mem r (pathOf v n) (indexOf v n)) PTE_PRESENT = true →
      has (slot s.mem r (pathOf v n) (indexOf v n)) PTE_HUGE = false := by
    intro n hn hpres
    exact hT.small r hr _ _ (PathKind.snoc hv (by omega)) (by simpa using hn) hpres
  rw [translate_slots]
  unfold walkResult
  dsimp only
  by_cases h3 : has (slot s.mem r (pathOf v 3) (indexOf v 3)) PTE_PRESENT = true
  · -- There is a last-level table, so all entries above it are present.
    have habove : ∀ n < 3, has (slot s.mem r (pathOf v n) (indexOf v n)) PTE_PRESENT = true := by
      cases ht : node s.mem r (pathOf v 3) with
      | none =>
        rw [slot_of_none ht, zero_has] at h3
        cases h3
      | some t => exact fun n hn => present_above ht hn
    have h1 := habove 1 (by omega)
    have h2 := habove 2 (by omega)
    rw [habove 0 (by omega), h1, h2, hsmall 1 (by omega) h1, hsmall 2 (by omega) h2, h3]
    rfl
  · rw [if_neg h3]
    split_ifs with h0 h1 hh1 h2 hh2 h3'
    · rfl
    · rfl
    · rw [hsmall 1 (by omega) (by simpa using h1)] at hh1
      cases hh1
    · rfl
    · rw [hsmall 2 (by omega) (by simpa using h2)] at hh2
      cases hh2
    · rfl
    · simp [h3] at h3'

/-! ## Calls -/

inductive SpaceOp
  | create_new_address_space
  | clone_address_space
  | switch_address_space (cr3 : BitVec 64)

/-- The spaces are those that were made so far, the last one first. -/
def SpaceOp.call (s : Mm) (spaces : List (BitVec 64)) :
    SpaceOp → Except Halt (Mm × List (BitVec 64))
  | .create_new_address_space => do
    let (r, s) ← Code.create_new_address_space s
    return (s, r :: spaces)
  | .clone_address_space => do
    let (r, s) ← Code.clone_address_space s
    return (s, r :: spaces)
  | .switch_address_space cr3 => .ok (Code.switch_address_space s cr3, spaces)

end Relis.Paging
