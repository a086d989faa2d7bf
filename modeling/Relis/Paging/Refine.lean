import Relis.Paging.Space

/-!
# An address space is a finite map

The calls of `arch_map_page` and `paging_unmap_page` in a new address space are
seen as updates of one map from page numbers to mappings.
-/

open Relis.Bytes Relis.Run Relis.Code Relis.PageAlloc

namespace Relis.Paging

/-! ## The map -/

def pageNumber (v : BitVec 64) : Nat := ((v >>> 12) &&& 0xFFFFFFFFF).toNat

structure Mapping where
  phys : BitVec 64
  flags : BitVec 64

abbrev PageMap := Nat → Option Mapping

def entryOf : Option Mapping → BitVec 64
  | none => 0
  | some m => pageEntry m.phys m.flags

inductive MapOp
  | map (virt phys flags : BitVec 64)
  | unmap (virt : BitVec 64)

def MapOp.Legal : MapOp → Prop
  | .map virt _ flags => UserHalf virt ∧ pte_flags flags = flags
  | .unmap virt => UserHalf virt

def MapOp.step (s : Mm) : MapOp → Except Halt Mm
  | .map virt phys flags => arch_map_page s virt phys flags
  | .unmap virt => .ok (paging_unmap_page s virt)

def MapOp.update (abs : PageMap) : MapOp → PageMap
  | .map virt phys flags => Function.update abs (pageNumber virt) (some ⟨phys, flags⟩)
  | .unmap virt => Function.update abs (pageNumber virt) none

/-- The map after all of `ops`: for each page its last mapping, if it was not unmapped since. -/
def lastMapping (ops : List MapOp) : PageMap := ops.foldl MapOp.update (fun _ => none)

/-! ## Page numbers and paths -/

theorem pageNumber_eq_iff {v w : BitVec 64} :
    pageNumber v = pageNumber w ↔ pathOf v 4 = pathOf w 4 := by
  have hpath : ∀ v, pathOf v 4 = [pgd_index v, pud_index v, pmd_index v, pte_index v] := fun v => rfl
  rw [hpath, hpath, List.cons.injEq, List.cons.injEq, List.cons.injEq, List.cons.injEq]
  unfold pageNumber pgd_index pud_index pmd_index pte_index
  simp only [toNat_index _ _ 9 0x1FF (by decide), toNat_index _ _ 36 0xFFFFFFFFF (by decide), and_true]
  omega

theorem pathOf_eq_of_page {v w : BitVec 64} (h : pageNumber v = pageNumber w) {n : Nat} (hn : n ≤ 4) :
    pathOf v n = pathOf w n := by
  have htake : ∀ x, (pathOf x 4).take n = pathOf x n := by
    intro x
    unfold pathOf
    rw [← List.map_take, List.take_range, Nat.min_eq_left hn]
  rw [← htake v, ← htake w, pageNumber_eq_iff.mp h]

theorem leaf_eq_iff {v w : BitVec 64} :
    pathOf v 3 = pathOf w 3 ∧ indexOf v 3 = indexOf w 3 ↔ pageNumber v = pageNumber w := by
  rw [pageNumber_eq_iff, pathOf_succ v 3, pathOf_succ w 3]
  constructor
  · rintro ⟨h1, h2⟩
    rw [h1, h2]
  · intro h
    obtain ⟨h1, h2⟩ := List.append_inj' h rfl
    exact ⟨h1, by simpa using h2⟩

/-! ## The invariant -/

/-- The address space `r` of `s` holds the map `abs`, and all of it lies in pages that were free
in `s0`. -/
structure Refines (s0 s : Mm) (r : BitVec 64) (abs : PageMap) : Prop where
  tables : Tables s {r}
  pgd : s.current_pgd = some r
  fresh : userPages s.mem r ⊆ freePages s0.pmm
  free : freePages s.pmm ⊆ freePages s0.pmm
  same : ∀ k ∉ freePages s0.pmm, SamePage s0.mem s.mem k
  kernel : ∀ i, 256 ≤ i → i < 512 → table_get s.mem r i = table_get s0.mem (pte_addr s0.cr3) i
  leaf : ∀ v, UserHalf v → slot s.mem r (pathOf v 3) (indexOf v 3) = entryOf (abs (pageNumber v))
  user : ∀ v, UserHalf v → has (slot s.mem r (pathOf v 3) (indexOf v 3)) PTE_USER = true →
    ∀ n < 3, has (slot s.mem r (pathOf v n) (indexOf v n)) PTE_USER = true

variable {s0 s s' : Mm} {r : BitVec 64} {abs : PageMap}

theorem refines_new (h : Created s0 s r) (hres : pageOf (pte_addr s0.cr3) ∉ freePages s0.pmm) :
    Refines s0 (switch_address_space s r) r (fun _ => none) := by
  have hempty : Tables s0 ∅ := ⟨by simp, by simp [Radix.Unshared], by simp, by simp⟩
  have hT := h.newRoot.tables hempty
  rw [insert_empty_eq] at hT
  have hslot : ∀ v n, UserHalf v → slot s.mem r (pathOf v n) (indexOf v n) = 0 :=
    fun v n hv => slot_of_empty h.user (pathOf_succ_user hv n)
  refine ⟨⟨hT.aligned, hT.unshared, hT.used, hT.small⟩, ?_, ?_, h.only.free, ?_, h.kernel hres, ?_, ?_⟩
  · unfold switch_address_space
    rw [h.addr]
  · rintro k ⟨q, x, hq, -, hx, rfl⟩
    have hx : node s.mem r q = some x := hx
    rw [node_of_empty h.user hq] at hx
    split_ifs at hx
    cases hx
    exact h.was_free
  · exact fun k hk => h.only.same k hk (Set.notMem_empty k)
  · exact fun v hv => hslot v 3 hv
  · intro v hv huser
    have hzero : slot (switch_address_space s r).mem r (pathOf v 3) (indexOf v 3) = 0 := hslot v 3 hv
    rw [hzero, zero_has] at huser
    cases huser

theorem Refines.same_step (h : Refines s0 s r abs) (honly : Only (userPages s.mem r) s s') :
    ∀ k ∉ freePages s0.pmm, SamePage s0.mem s'.mem k := by
  intro k hk x hx
  rw [honly.same k (fun hf => hk (h.free hf)) (fun hu => hk (h.fresh hu)) x hx, h.same k hk x hx]

theorem Refines.map {virt phys flags : BitVec 64} (h : Refines s0 s r abs) (hv : UserHalf virt)
    (hstep : arch_map_page s virt phys flags = .ok s') :
    Refines s0 s' r (Function.update abs (pageNumber virt) (some ⟨phys, flags⟩)) := by
  have hm := arch_map_page_spec h.tables (Set.mem_singleton r) h.pgd (pathOf_user hv 4) hstep
  have hoff : ∀ q j, UserPath q → q.length ≤ 3 → j < 512 → q ++ [j] ≠ pathOf virt (q.length + 1) →
      slot s'.mem r q j = slot s.mem r q j :=
    fun q j hq hn hj hne => hm.slots r (Set.mem_singleton r) q j hq hn hj (fun h => hne h.2)
  have hleaf : ∀ v, UserHalf v → slot s'.mem r (pathOf v 3) (indexOf v 3) =
      entryOf (Function.update abs (pageNumber virt) (some ⟨phys, flags⟩) (pageNumber v)) := by
    intro v hv'
    by_cases hpage : pageNumber v = pageNumber virt
    · obtain ⟨h1, h2⟩ := leaf_eq_iff.mpr hpage
      rw [hpage, Function.update_self, h1, h2, hm.leaf]
      rfl
    · rw [Function.update_of_ne hpage, ← h.leaf v hv']
      have hpath := pathOf_succ_user hv' 3
      apply hoff _ _ hpath.init (by simp) hpath.last_lt
      intro heq
      rw [← pathOf_succ, pathOf_length] at heq
      exact hpage (pageNumber_eq_iff.mpr heq)
  refine ⟨hm.tables, hm.only.current_pgd.trans h.pgd, ?_, hm.only.free.trans h.free,
    h.same_step hm.only, ?_, hleaf, ?_⟩
  · intro k hk
    rcases hm.pages_subset (Set.mem_singleton r) hk with hk | hk
    · exact h.fresh hk
    · exact h.free hk
  · intro i hlo hhi
    have hslot := hoff [] i trivial (by simp) hhi
    rw [slot_of_node (node_nil _ _), slot_of_node (node_nil _ _)] at hslot
    rw [hslot, h.kernel i hlo hhi]
    intro heq
    have hi : i = pgd_index virt := by simpa [pathOf, indexOf] using heq
    unfold UserHalf at hv
    omega
  · intro v hv' huser n hn
    have hpath := pathOf_succ_user hv' n
    by_cases hpage : pageNumber v = pageNumber virt
    · -- The new mapping: its user bit was put into every entry of the path.
      have hon := pathOf_eq_of_page hpage (show n + 1 ≤ 4 by omega)
      rw [hleaf v hv', hpage, Function.update_self, entryOf, pageEntry_user] at huser
      have hentry := hm.path n hn
      rw [userFlag, if_pos huser] at hentry
      rw [pathOf_succ, pathOf_succ] at hon
      obtain ⟨h1, h2⟩ := List.append_inj' hon rfl
      rw [List.singleton_inj] at h2
      rw [h1, h2]
      exact hentry.user
    · rw [hleaf v hv', Function.update_of_ne hpage, ← h.leaf v hv'] at huser
      have hold := h.user v hv' huser n hn
      by_cases hon : pathOf v n ++ [indexOf v n] = pathOf virt ((pathOf v n).length + 1)
      · obtain ⟨h1, h2⟩ := snoc_eq_pathOf hon
        rw [pathOf_length] at h1 h2
        have hentry := hm.path n hn
        rw [← h1, ← h2] at hentry
        apply hentry.keeps_user _ hold
        cases ht : node s.mem r (pathOf v 3) with
        | none =>
          rw [slot_of_none ht, zero_has] at huser
          cases huser
        | some t => exact present_above ht hn
      · rwa [hoff _ _ hpath.init (by simp; omega) hpath.last_lt hon]

theorem Refines.unmap {virt : BitVec 64} (h : Refines s0 s r abs) (hv : UserHalf virt) :
    Refines s0 (paging_unmap_page s virt) r (Function.update abs (pageNumber virt) none) := by
  have hm := paging_unmap_page_spec h.tables (Set.mem_singleton r) h.pgd (pathOf_user hv 4)
  generalize paging_unmap_page s virt = s' at hm
  have hoff : ∀ q j, UserPath q → q.length ≤ 3 → j < 512 → ¬ (q = pathOf virt 3 ∧ j = indexOf virt 3) →
      slot s'.mem r q j = slot s.mem r q j :=
    fun q j hq hn hj hne => hm.slots r (Set.mem_singleton r) q j hq hn hj (fun h => hne h.2)
  have hupper : ∀ q j, UserPath q → q.length < 3 → j < 512 → slot s'.mem r q j = slot s.mem r q j := by
    intro q j hq hn hj
    apply hoff q j hq (by omega) hj
    rintro ⟨rfl, -⟩
    simp at hn
  have hleaf : ∀ v, UserHalf v → slot s'.mem r (pathOf v 3) (indexOf v 3) =
      entryOf (Function.update abs (pageNumber virt) none (pageNumber v)) := by
    intro v hv'
    by_cases hpage : pageNumber v = pageNumber virt
    · obtain ⟨h1, h2⟩ := leaf_eq_iff.mpr hpage
      rw [hpage, Function.update_self, h1, h2, hm.leaf, h.leaf virt hv]
      cases abs (pageNumber virt) with
      | none => rfl
      | some m => exact if_pos (pageEntry_present m.phys m.flags)
    · rw [Function.update_of_ne hpage, ← h.leaf v hv']
      have hpath := pathOf_succ_user hv' 3
      apply hoff _ _ hpath.init (by simp) hpath.last_lt
      exact fun heq => hpage (leaf_eq_iff.mp heq)
  refine ⟨hm.tables, hm.only.current_pgd.trans h.pgd, ?_, hm.only.free.trans h.free,
    h.same_step hm.only, ?_, hleaf, ?_⟩
  · rintro k ⟨q, x, hq, hn, hx, rfl⟩
    apply h.fresh
    rw [node_of_slots (fun p i hp hn => hupper p i hp.init (by omega) hp.last_lt) hq hn] at hx
    exact ⟨q, x, hq, hn, hx, rfl⟩
  · intro i hlo hhi
    have hslot := hupper [] i trivial (by simp) hhi
    rw [slot_of_node (node_nil _ _), slot_of_node (node_nil _ _)] at hslot
    rw [hslot, h.kernel i hlo hhi]
  · intro v hv' huser n hn
    have hpath := pathOf_succ_user hv' n
    rw [hupper _ _ hpath.init (by simpa using hn) hpath.last_lt]
    apply h.user v hv' _ n hn
    rw [hleaf v hv'] at huser
    by_cases hpage : pageNumber v = pageNumber virt
    · rw [hpage, Function.update_self, entryOf, zero_has] at huser
      cases huser
    · rwa [Function.update_of_ne hpage, ← h.leaf v hv'] at huser

theorem refines_run {ops : List MapOp} (h : Refines s0 s r abs) (hops : ∀ op ∈ ops, op.Legal)
    (hrun : run MapOp.step s ops = .ok s') : Refines s0 s' r (ops.foldl MapOp.update abs) := by
  induction ops generalizing s abs with
  | nil =>
    cases hrun
    exact h
  | cons op ops ih =>
    rw [run_cons, bind_ok] at hrun
    obtain ⟨s1, h1, hrun⟩ := hrun
    have hlegal := hops op List.mem_cons_self
    rw [List.foldl_cons]
    apply ih _ (fun o ho => hops o (List.mem_cons_of_mem _ ho)) hrun
    cases op with
    | map virt phys flags => exact h.map hlegal.1 h1
    | unmap virt =>
      cases h1
      exact h.unmap hlegal

/-! ## What the reader and the hardware see -/

theorem Refines.walk (h : Refines s0 s r abs) {v : BitVec 64} (hv : UserHalf v) :
    match abs (pageNumber v) with
    | some m => walkEntry s v = some (pageEntry m.phys m.flags)
    | none => ∀ e, walkEntry s v = some e → has e PTE_PRESENT = false := by
  have hwalk := walkEntry_spec h.tables (Set.mem_singleton r) h.pgd (pathOf_user hv 4)
  have hleaf := h.leaf v hv
  cases ht : node s.mem r (pathOf v 3) with
  | none =>
    rw [ht, Option.map_none] at hwalk
    rw [slot_of_none ht] at hleaf
    cases habs : abs (pageNumber v) with
    | none => simp [hwalk]
    | some m =>
      -- A mapping is present, so it needs a table to stand in.
      have hpres := pageEntry_present m.phys m.flags
      rw [habs, entryOf] at hleaf
      rw [← hleaf, zero_has] at hpres
      cases hpres
  | some t =>
    rw [ht, Option.map_some, ← slot_of_node ht, hleaf] at hwalk
    cases habs : abs (pageNumber v) with
    | none =>
      intro e he
      rw [hwalk, habs, entryOf, Option.some.injEq] at he
      rw [← he, zero_has]
    | some m => rw [hwalk, habs, entryOf]

theorem Refines.user_iff (h : Refines s0 s r abs) {v : BitVec 64} (hv : UserHalf v) :
    UserAccessible s.mem r v ↔ ∃ m, abs (pageNumber v) = some m ∧ has m.flags PTE_USER = true := by
  have hleaf := h.leaf v hv
  constructor
  · intro hacc
    obtain ⟨hp, hu⟩ := hacc 3 (by omega)
    rw [hleaf] at hp hu
    cases habs : abs (pageNumber v) with
    | none =>
      rw [habs, entryOf, zero_has] at hp
      cases hp
    | some m =>
      rw [habs, entryOf, pageEntry_user] at hu
      exact ⟨m, rfl, hu⟩
  · rintro ⟨m, habs, hu⟩ n hn
    rw [habs, entryOf] at hleaf
    have huser : has (slot s.mem r (pathOf v 3) (indexOf v 3)) PTE_USER = true := by
      rw [hleaf, pageEntry_user, hu]
    by_cases hn3 : n = 3
    · subst hn3
      exact ⟨by rw [hleaf, pageEntry_present], huser⟩
    · refine ⟨?_, h.user v hv huser n (by omega)⟩
      cases ht : node s.mem r (pathOf v 3) with
      | none =>
        rw [slot_of_none ht, zero_has] at huser
        cases huser
      | some t => exact present_above ht (by omega)

theorem Refines.translate_kernel (h : Refines s0 s r abs) (hres : KernelReserved s0 (pte_addr s0.cr3))
    {v : BitVec 64} (hv : KernelHalf v) :
    translate s.mem r v = translate s0.mem (pte_addr s0.cr3) v := by
  apply Paging.translate_kernel h.kernel _ hv
  intro p t hp _ hn ht
  exact h.same _ (hres p t hp hn ht)

/-! ## Enough pages -/

theorem ensure_table_error {i : Nat} {t u : BitVec 64} {e : Halt}
    (h : ensure_table s t i u = .error e) : e = .out_of_pages := by
  unfold ensure_table at h
  split_ifs at h with hp
  · rw [bind_error] at h
    rcases h with h | ⟨_, _, h⟩
    · exact (alloc_page_error h).1
    · cases h
  · cases h

theorem arch_map_page_error {virt phys flags : BitVec 64} {e : Halt}
    (h : arch_map_page s virt phys flags = .error e) : e = .out_of_pages := by
  unfold arch_map_page at h
  split at h
  · cases h
  · simp only [bind_error] at h
    rcases h with h | ⟨_, _, h | ⟨_, _, h | ⟨_, _, h⟩⟩⟩
    · exact ensure_table_error h
    · exact ensure_table_error h
    · exact ensure_table_error h
    · cases h

theorem run_error {ops : List MapOp} {e : Halt} (h : run MapOp.step s ops = .error e) :
    e = .out_of_pages := by
  induction ops generalizing s with
  | nil => cases h
  | cons op ops ih =>
    rw [run_cons, bind_error] at h
    rcases h with h | ⟨s1, -, h⟩
    · cases op with
      | map virt phys flags => exact arch_map_page_error h
      | unmap virt => cases h
    · exact ih h

theorem ensure_table_pool {n i : Nat} {t u : BitVec 64} (h : Pool (n + 1) s) :
    ∃ s', ensure_table s t i u = .ok s' ∧ Pool n s' := by
  unfold ensure_table
  split_ifs with hp
  · obtain ⟨f, s1, halloc, hpool⟩ := alloc_page_pool h
    rw [halloc]
    exact ⟨_, rfl, hpool.of_pmm (table_set_pmm s1 t i _)⟩
  · exact ⟨_, rfl, (h.le (by omega)).of_pmm (table_set_pmm s t i _)⟩

theorem create_new_address_space_pool {n : Nat} (h : Pool (n + 1) s) :
    ∃ r s', create_new_address_space s = .ok (r, s') ∧ Pool n s' := by
  obtain ⟨f, s1, halloc, hpool⟩ := alloc_page_pool h
  obtain ⟨s2, hcopy⟩ := copy_kernel_half_ok (pte_addr s1.cr3) f s1
  obtain ⟨hpmm, -⟩ := copy_kernel_half_spec (addr_aligned _) (alloc_page_new halloc).aligned hcopy
  refine ⟨f, s2, ?_, hpool.of_pmm hpmm⟩
  simp only [create_new_address_space, bind_ok]
  exact ⟨(f, s1), halloc, s2, hcopy, rfl⟩

theorem arch_map_page_pool {n : Nat} (h : Pool (n + 3) s) (virt phys flags : BitVec 64) :
    ∃ s', arch_map_page s virt phys flags = .ok s' ∧ Pool n s' := by
  unfold arch_map_page
  cases s.current_pgd with
  | none => exact ⟨s, rfl, h.le (by omega)⟩
  | some pgd =>
    simp only [bind_ok]
    obtain ⟨s1, h1, p1⟩ := ensure_table_pool (n := n + 2) h
    obtain ⟨s2, h2, p2⟩ := ensure_table_pool (n := n + 1) p1
    obtain ⟨s3, h3, p3⟩ := ensure_table_pool p2
    exact ⟨_, ⟨s1, h1, s2, h2, s3, h3, rfl⟩, p3.of_pmm (table_set_pmm s3 _ _ _)⟩

theorem paging_unmap_page_pmm (s : Mm) (virt : BitVec 64) :
    (paging_unmap_page s virt).pmm = s.pmm := by
  unfold paging_unmap_page
  split
  · rfl
  · split_ifs <;> rfl

theorem run_pool (ops : List MapOp) {n : Nat} (h : Pool (n + 3 * ops.length) s) :
    ∃ s', run MapOp.step s ops = .ok s' ∧ Pool n s' := by
  induction ops generalizing s with
  | nil => exact ⟨s, rfl, h⟩
  | cons op ops ih =>
    have hlen : n + 3 * (op :: ops).length = n + 3 * ops.length + 3 := by
      rw [List.length_cons]
      omega
    rw [hlen] at h
    simp only [run_cons, bind_ok]
    cases op with
    | map virt phys flags =>
      obtain ⟨s1, h1, p1⟩ := arch_map_page_pool h virt phys flags
      obtain ⟨s2, h2, p2⟩ := ih p1
      exact ⟨s2, ⟨s1, h1, h2⟩, p2⟩
    | unmap virt =>
      obtain ⟨s2, h2, p2⟩ := ih ((h.le (by omega)).of_pmm (paging_unmap_page_pmm s virt))
      exact ⟨s2, ⟨_, rfl, h2⟩, p2⟩

/-! ## Any run in a new address space -/

/-- The walk yields the last mapping of a page, the user bit decides who may use it, and the kernel
half stays as it was. -/
theorem run_refines {s0 s1 : Mm} {r : BitVec 64} {ops : List MapOp}
    (hres : KernelReserved s0 (pte_addr s0.cr3))
    (hnew : create_new_address_space s0 = .ok (r, s1)) (hops : ∀ op ∈ ops, op.Legal)
    (hpages : run MapOp.step (switch_address_space s1 r) ops ≠ .error .out_of_pages) :
    ∃ s, run MapOp.step (switch_address_space s1 r) ops = .ok s ∧
      (∀ v, UserHalf v →
        (match lastMapping ops (pageNumber v) with
          | some m => walkEntry s v = some (pte_addr m.phys ||| m.flags ||| PTE_PRESENT)
          | none => ∀ e, walkEntry s v = some e → has e PTE_PRESENT = false) ∧
        (UserAccessible s.mem r v ↔
          ∃ m, lastMapping ops (pageNumber v) = some m ∧ has m.flags PTE_USER = true)) ∧
      ∀ v, KernelHalf v → translate s.mem r v = translate s0.mem (pte_addr s0.cr3) v := by
  cases hrun : run MapOp.step (switch_address_space s1 r) ops with
  | error e =>
    rw [run_error hrun] at hrun
    exact absurd hrun hpages
  | ok s =>
    have hroot := hres [] _ trivial (by simp) (node_nil _ _)
    have h := refines_run (refines_new (create_new_address_space_spec hnew) hroot) hops hrun
    exact ⟨s, rfl, fun v hv => ⟨h.walk hv, h.user_iff hv⟩, fun v hv => h.translate_kernel hres hv⟩

def sixteenPages : Mm := start ⟨Pmm.zero, fun _ => 0, 0, none⟩ 64 0xFFFFFFFF80001000

theorem sixteenPages_pool : Pool 15 sixteenPages :=
  ⟨pmm_init_inv _ _ _ rfl (by decide), by decide⟩

theorem sixteenPages_reserved : KernelReserved sixteenPages (pte_addr sixteenPages.cr3) := by
  intro p t hp _ ht
  have hzero : ∀ i, table_get sixteenPages.mem (pte_addr sixteenPages.cr3) i = 0 :=
    fun i => read64_eq_zero (fun _ _ _ => rfl)
  cases p with
  | nil =>
    cases ht
    rw [mem_freePages]
    decide
  | cons i p =>
    unfold node at ht
    rw [Radix.node, hzero, child_of_absent (zero_has _), Option.bind_none] at ht
    cases ht

def smallOps : List MapOp :=
  [.map 0x400000 0x5000 (PTE_WRITABLE ||| PTE_USER), .map 0x401000 0x6000 PTE_WRITABLE, .unmap 0x401000]

theorem smallOps_legal : ∀ op ∈ smallOps, op.Legal := by
  simp only [smallOps, List.forall_mem_cons, MapOp.Legal, UserHalf]
  exact ⟨by decide, by decide, by decide, by simp⟩

theorem run_refines_small : ∃ r s1 s, create_new_address_space sixteenPages = .ok (r, s1) ∧
    run MapOp.step (switch_address_space s1 r) smallOps = .ok s ∧
    walkEntry s 0x400123 = some 0x5007 ∧ UserAccessible s.mem r 0x400123 ∧
    ∀ e, walkEntry s 0x401000 = some e → has e PTE_PRESENT = false := by
  obtain ⟨r, s1, hnew, hpool⟩ := create_new_address_space_pool (n := 14) sixteenPages_pool
  have hpages : run MapOp.step (switch_address_space s1 r) smallOps ≠ .error .out_of_pages := by
    obtain ⟨s, hs, -⟩ := run_pool (s := switch_address_space s1 r) smallOps (n := 0)
      ⟨hpool.inv, by have := hpool.enough; exact le_trans (by decide) this⟩
    rw [hs]
    simp
  obtain ⟨s, hrun, huser, -⟩ := run_refines sixteenPages_reserved hnew smallOps_legal hpages
  obtain ⟨hwalk, hacc⟩ := huser 0x400123 (by unfold UserHalf; decide)
  obtain ⟨hgone, -⟩ := huser 0x401000 (by unfold UserHalf; decide)
  exact ⟨r, s1, s, hnew, hrun, hwalk, hacc.mpr ⟨_, rfl, by decide⟩, hgone⟩

end Relis.Paging
