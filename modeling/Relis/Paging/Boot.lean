import Relis.Code.Boot
import Relis.Paging.Space

/-!
# The tables that the kernel starts with

Apart from huge pages the seven tables map nothing, and no two entries lead to the same
table.
-/

open Relis.Bytes Relis.Run Relis.Code Relis.PageAlloc

namespace Relis.Paging

variable {i : Nat} {p : List Nat} {t : BitVec 64}

/-- Where the linker and the loader have put the kernel. -/
structure Layout (p4_table : BitVec 64) (m : Mem) (kernel_end : BitVec 64) : Prop where
  aligned : Aligned p4_table
  low : 0x100000 ≤ p4_table.toNat
  inside : p4_table.toNat + 0x7000 ≤ 4096 * kernel_pages kernel_end
  fits : kernel_pages kernel_end ≤ 65536
  bss : ∀ x, p4_table.toNat ≤ x → x < p4_table.toNat + 0x7000 → m x = 0

variable {p4 kernel_end : BitVec 64} {m : Mem} {n : Nat}

theorem Layout.toNat_table (h : Layout p4 m kernel_end) (hn : n < 7) :
    (boot_table p4 n).toNat = p4.toNat + 4096 * n := by
  have h1 := h.inside
  have h2 := h.fits
  unfold boot_table
  rw [BitVec.toNat_add, BitVec.toNat_ofNat]
  omega

theorem Layout.table_aligned (h : Layout p4 m kernel_end) (hn : n < 7) :
    Aligned (boot_table p4 n) := by
  have haligned := h.aligned
  unfold Aligned at haligned ⊢
  rw [h.toNat_table hn]
  omega

theorem Layout.table_inj (h : Layout p4 m kernel_end) {k : Nat} (hn : n < 7) (hk : k < 7) :
    boot_table p4 n = boot_table p4 k ↔ n = k := by
  constructor
  · intro heq
    have htoNat := congrArg BitVec.toNat heq
    rw [h.toNat_table hn, h.toNat_table hk] at htoNat
    omega
  · rintro rfl
    rfl

theorem Layout.pageOf_table (h : Layout p4 m kernel_end) (hn : n < 7) :
    pageOf (boot_table p4 n) < kernel_pages kernel_end := by
  have h1 := h.inside
  unfold pageOf
  rw [h.toNat_table hn]
  omega

theorem Layout.addr_table (h : Layout p4 m kernel_end) (hn : n < 7) :
    pte_addr (boot_table p4 n) = boot_table p4 n := by
  have haligned := h.table_aligned hn
  have hpage := h.pageOf_table hn
  have h2 := h.fits
  unfold Aligned at haligned
  unfold pageOf at hpage
  exact addr_of_page (i := (boot_table p4 n).toNat / 4096) (by omega) (by omega)

theorem boot_table_zero (p4 : BitVec 64) : boot_table p4 0 = p4 := by
  simp [boot_table]

/-! ## What `_start` writes -/

theorem get_store {t' : BitVec 64} {j : Nat} (e : BitVec 64) (m : Mem) (ht : Aligned t)
    (ht' : Aligned t') (hi : i < 512) (hj : j < 512) :
    table_get (store_entry t i e m) t' j = if t' = t ∧ j = i then e else table_get m t' j :=
  table_get_set ⟨Pmm.zero, m, 0, none⟩ e ht ht' hi hj

def bootHuge (j : Nat) : BitVec 64 := BitVec.ofNat 64 (0x200000 * j) ||| 0x83

theorem bootHuge_cow : ∀ i < 512, has (bootHuge i) PTE_COW = false := by
  decide +kernel

theorem get_map_p2 {t' : BitVec 64} {j : Nat} (m : Mem) (ht : Aligned t) (ht' : Aligned t')
    (hn : n ≤ 512) (hj : j < 512) :
    table_get (map_p2 t n m) t' j = if t' = t ∧ j < n then bootHuge j else table_get m t' j := by
  induction n with
  | zero => simp [map_p2]
  | succ n ih =>
    rw [map_p2, List.range_succ, List.foldl_append, List.foldl_cons, List.foldl_nil, ← map_p2,
      get_store _ _ ht ht' (by omega) hj, ih (by omega)]
    by_cases hjn : j = n
    · subst hjn
      by_cases heq : t' = t <;> simp [heq, bootHuge]
    · have hlt : j < n + 1 ↔ j < n := by omega
      simp [hjn, hlt]

def bootLinks : List (Nat × Nat × Nat) :=
  [(0, 0, 1), (1, 0, 2), (0, 511, 3), (3, 510, 4), (0, 256, 5), (5, 0, 6)]

def HugeAt (n i : Nat) : Prop := (n = 2 ∧ i = 0) ∨ n = 4 ∨ n = 6

theorem Layout.get_bss (h : Layout p4 m kernel_end) (hn : n < 7) (hi : i < 512) :
    table_get m (boot_table p4 n) i = 0 := by
  unfold table_get
  rw [h.toNat_table hn]
  apply read64_eq_zero
  intro x h1 h2
  exact h.bss x (by omega) (by omega)

def BootEntry (p4 : BitVec 64) (n i : Nat) (e : BitVec 64) : Prop :=
  (∃ k < 7, (n, i, k) ∈ bootLinks ∧ e = boot_table p4 k ||| 3) ∨ (HugeAt n i ∧ e = bootHuge i) ∨ e = 0

theorem Layout.store (h : Layout p4 m kernel_end) {e : BitVec 64} {a b : Nat} {m' : Mem}
    (ht : t = boot_table p4 a) (ha : a < 7) (hb : b < 512) (hn : n < 7) (hi : i < 512)
    (he : BootEntry p4 a b e) (hold : BootEntry p4 n i (table_get m' (boot_table p4 n) i)) :
    BootEntry p4 n i (table_get (store_entry t b e m') (boot_table p4 n) i) := by
  subst ht
  rw [get_store e m' (h.table_aligned ha) (h.table_aligned hn) hb hi]
  split_ifs with heq
  · obtain ⟨htable, rfl⟩ := heq
    rw [h.table_inj hn ha] at htable
    rwa [htable]
  · exact hold

theorem Layout.map_huge (h : Layout p4 m kernel_end) {a k : Nat} {m' : Mem} (ha : a < 7)
    (hk : k ≤ 512) (hn : n < 7) (hi : i < 512) (hhuge : ∀ j < k, HugeAt a j)
    (hold : BootEntry p4 n i (table_get m' (boot_table p4 n) i)) :
    BootEntry p4 n i (table_get (map_p2 (boot_table p4 a) k m') (boot_table p4 n) i) := by
  rw [get_map_p2 m' (h.table_aligned ha) (h.table_aligned hn) hk hi]
  split_ifs with heq
  · rw [h.table_inj hn ha] at heq
    exact .inr (.inl ⟨heq.1 ▸ hhuge i heq.2, rfl⟩)
  · exact hold

theorem Layout.get_start (h : Layout p4 m kernel_end) (hn : n < 7) (hi : i < 512) :
    BootEntry p4 n i (table_get (start_tables p4 m) (boot_table p4 n) i) := by
  have hlink : ∀ a b k, k < 7 → (a, b, k) ∈ bootLinks → BootEntry p4 a b (boot_table p4 k ||| 3) :=
    fun a b k hk hmem => .inl ⟨k, hk, hmem, rfl⟩
  have h0 := (boot_table_zero p4).symm
  unfold start_tables
  -- The stores from the last one back to the first.
  apply h.map_huge (by omega) (by omega) hn hi (fun j _ => .inr (.inr rfl))
  apply h.map_huge (by omega) (by omega) hn hi (fun j _ => .inr (.inl rfl))
  apply h.map_huge (by omega) (by omega) hn hi (fun j hj => .inl ⟨rfl, by omega⟩)
  apply h.store rfl (by omega) (by omega) hn hi (hlink 5 0 6 (by omega) (by decide))
  apply h.store h0 (by omega) (by omega) hn hi (hlink 0 256 5 (by omega) (by decide))
  apply h.store rfl (by omega) (by omega) hn hi (hlink 3 510 4 (by omega) (by decide))
  apply h.store h0 (by omega) (by omega) hn hi (hlink 0 511 3 (by omega) (by decide))
  apply h.store rfl (by omega) (by omega) hn hi (hlink 1 0 2 (by omega) (by decide))
  apply h.store h0 (by omega) (by omega) hn hi (hlink 0 0 1 (by omega) (by decide))
  exact .inr (.inr (h.get_bss hn hi))

/-! ## The tree of the boot tables -/

def SmallPath (p : List Nat) : Prop :=
  (∀ j ∈ p, j < 512) ∧ ¬ [0, 0, 0] <+: p ∧ ∀ j, ¬ [511, 510, j] <+: p ∧ ¬ [256, 0, j] <+: p

instance : PathKind SmallPath where
  of_prefix := by
    rintro p q hpq ⟨hlt, hlow, hhigh⟩
    refine ⟨fun j hj => hlt j (hpq.subset hj), fun h => hlow (h.trans hpq), fun j => ⟨?_, ?_⟩⟩
    · exact fun h => (hhigh j).1 (h.trans hpq)
    · exact fun h => (hhigh j).2 (h.trans hpq)
  last_lt := fun p i h => h.1 i (by simp)

def bootPaths : List (List Nat) := [[], [0], [0, 0], [511], [511, 510], [256], [256, 0]]

theorem Layout.addr_entry (h : Layout p4 m kernel_end) (hn : n < 7) :
    pte_addr (boot_table p4 n ||| 3) = boot_table p4 n := by
  rw [addr_or, h.addr_table hn, show pte_addr 3 = 0 by decide]
  simp

theorem start_mm_mem (p4 : BitVec 64) (m : Mem) (kernel_end : BitVec 64) :
    (start_mm p4 m kernel_end).mem = start_tables p4 m := by
  simp only [start_mm, pmm_init]

theorem start_mm_cr3 (p4 : BitVec 64) (m : Mem) (kernel_end : BitVec 64) :
    (start_mm p4 m kernel_end).cr3 = p4 := by
  simp only [start_mm, pmm_init]

theorem bootPaths_link :
    ∀ l ∈ bootLinks, bootPaths[l.2.2]? = (bootPaths[l.1]?).map (· ++ [l.2.1]) := by
  decide

theorem not_small_huge (hhuge : HugeAt n i) (hpath : bootPaths[n]? = some p) :
    ¬ SmallPath (p ++ [i]) := by
  rintro ⟨-, hlow, hhigh⟩
  rcases hhuge with ⟨rfl, rfl⟩ | rfl | rfl
  · cases hpath
    exact hlow (List.prefix_refl _)
  · cases hpath
    exact (hhigh i).1 (List.prefix_refl _)
  · cases hpath
    exact (hhigh i).2 (List.prefix_refl _)

theorem Layout.node_boot (h : Layout p4 m kernel_end) (hp : SmallPath p)
    (ht : node (start_mm p4 m kernel_end).mem p4 p = some t) :
    ∃ n, bootPaths[n]? = some p ∧ t = boot_table p4 n := by
  rw [start_mm_mem] at ht
  induction p using List.reverseRecOn generalizing t with
  | nil =>
    cases ht
    exact ⟨0, rfl, (boot_table_zero _).symm⟩
  | append_singleton p i ih =>
    have hi := PathKind.index_lt hp
    rw [node_snoc, Option.bind_eq_some_iff] at ht
    obtain ⟨t', ht', hchild⟩ := ht
    obtain ⟨n, hpath, rfl⟩ := ih (PathKind.init hp) ht'
    have hn : n < 7 := (List.getElem?_eq_some_iff.mp hpath).1
    rcases h.get_start hn hi with ⟨k, hk, hlink, he⟩ | ⟨hhuge, -⟩ | he
    · rw [he] at hchild
      refine ⟨k, ?_, by rw [(child_eq_some hchild).1, h.addr_entry hk]⟩
      rw [bootPaths_link _ hlink, hpath]
      rfl
    · exact absurd hp (not_small_huge hhuge hpath)
    · rw [he, child_of_absent (zero_has _)] at hchild
      cases hchild

theorem Layout.entry_small (h : Layout p4 m kernel_end) (hn : n < 7) :
    has (boot_table p4 n ||| 3) PTE_HUGE = false := by
  rw [has_or, ← h.addr_table hn, addr_has _ _ (by decide)]
  decide

theorem Layout.used (h : Layout p4 m kernel_end) (hn : n < 7) :
    (start_mm p4 m kernel_end).pmm.page_used (pageOf (boot_table p4 n)) = true := by
  unfold start_mm
  rw [pmm_init_used, decide_eq_true_eq]
  exact h.pageOf_table hn

theorem Layout.forest (h : Layout p4 m kernel_end) :
    Forest SmallPath (start_mm p4 m kernel_end) {p4} := by
  have hlt : ∀ {n : Nat} {p : List Nat}, bootPaths[n]? = some p → n < 7 := by
    intro n p hpath
    exact (List.getElem?_eq_some_iff.mp hpath).1
  refine ⟨?_, ?_, ?_, ?_⟩
  · rintro r rfl
    exact h.aligned
  · rintro r rfl r' rfl p p' t hp hp' - - ht ht'
    obtain ⟨n, hpath, rfl⟩ := h.node_boot hp ht
    obtain ⟨n', hpath', heq⟩ := h.node_boot hp' ht'
    rw [h.table_inj (hlt hpath) (hlt hpath')] at heq
    subst heq
    exact ⟨rfl, Option.some.inj (hpath.symm.trans hpath')⟩
  · rintro r rfl p t hp - ht
    obtain ⟨n, hpath, rfl⟩ := h.node_boot hp ht
    exact h.used (hlt hpath)
  · rintro r rfl p i hp - hpres
    cases ht : node (start_mm r m kernel_end).mem r p with
    | none =>
      rw [slot_of_none ht, zero_has] at hpres
      cases hpres
    | some t =>
      obtain ⟨n, hpath, rfl⟩ := h.node_boot (PathKind.init hp) ht
      rw [slot_of_node ht, start_mm_mem] at hpres ⊢
      rcases h.get_start (hlt hpath) (PathKind.index_lt hp) with ⟨k, hk, -, he⟩ | ⟨hhuge, -⟩ | he
      · rw [he]
        exact h.entry_small hk
      · exact absurd hp (not_small_huge hhuge hpath)
      · rw [he, zero_has] at hpres
        cases hpres

/-! ## Below the huge pages -/

def Closed (m : Mem) (r : BitVec 64) : Prop :=
  ∀ p i, SmallPath p → i < 512 → ¬ SmallPath (p ++ [i]) → node m r (p ++ [i]) = none

theorem snoc_of_eq {a b c : Nat} (h : [a, b, c] = p ++ [i]) : p = [a, b] ∧ i = c := by
  change [a, b] ++ [c] = p ++ [i] at h
  obtain ⟨h1, h2⟩ := List.append_inj' h rfl
  exact ⟨h1.symm, (List.singleton_inj.mp h2).symm⟩

theorem hugePath_cases (hp : SmallPath p) (hi : i < 512) (hnot : ¬ SmallPath (p ++ [i])) :
    (p = [0, 0] ∧ i = 0) ∨ p = [511, 510] ∨ p = [256, 0] := by
  by_contra hcases
  rw [not_or, not_or] at hcases
  obtain ⟨hlt, hlow, hhigh⟩ := hp
  refine hnot ⟨?_, ?_, fun j => ⟨?_, ?_⟩⟩
  · intro j hj
    rcases List.mem_append.mp hj with hj | hj
    · exact hlt j hj
    · rwa [List.mem_singleton.mp hj]
  · rw [List.prefix_concat_iff, not_or]
    exact ⟨fun heq => hcases.1 (snoc_of_eq heq), hlow⟩
  · rw [List.prefix_concat_iff, not_or]
    exact ⟨fun heq => hcases.2.1 (snoc_of_eq heq).1, (hhigh j).1⟩
  · rw [List.prefix_concat_iff, not_or]
    exact ⟨fun heq => hcases.2.2 (snoc_of_eq heq).1, (hhigh j).2⟩

theorem bootPaths_inj : ∀ n < 7, ∀ k < 7, bootPaths[n]? = bootPaths[k]? → n = k := by
  decide

theorem child_bootHuge (i : Nat) : child 2 (bootHuge i) = none := by
  have hhuge : has (bootHuge i) PTE_HUGE = true := by
    rw [bootHuge, has_or, show has 0x83 PTE_HUGE = true by decide, Bool.or_true]
  simp [child, hhuge]

theorem Layout.closed (h : Layout p4 m kernel_end) : Closed (start_mm p4 m kernel_end).mem p4 := by
  intro p i hp hi hnot
  have hcases := hugePath_cases hp hi hnot
  have hlen : p.length = 2 := by
    rcases hcases with ⟨rfl, -⟩ | rfl | rfl <;> rfl
  rw [node_snoc]
  cases ht : node (start_mm p4 m kernel_end).mem p4 p with
  | none => rfl
  | some t =>
    obtain ⟨n, hpath, rfl⟩ := h.node_boot hp ht
    have hn : n < 7 := (List.getElem?_eq_some_iff.mp hpath).1
    have hhuge : HugeAt n i := by
      rcases hcases with ⟨rfl, rfl⟩ | rfl | rfl
      · exact .inl ⟨bootPaths_inj n hn 2 (by omega) hpath, rfl⟩
      · exact .inr (.inl (bootPaths_inj n hn 4 (by omega) hpath))
      · exact .inr (.inr (bootPaths_inj n hn 6 (by omega) hpath))
    rw [Option.bind_some, start_mm_mem, hlen]
    rcases h.get_start hn hi with ⟨k, -, hlink, -⟩ | ⟨-, he⟩ | he
    · -- No table with huge pages leads to another table.
      simp only [bootLinks, List.mem_cons, Prod.mk.injEq, List.not_mem_nil, or_false] at hlink
      unfold HugeAt at hhuge
      omega
    · rw [he, child_bootHuge]
    · rw [he, child_of_absent (zero_has _)]

theorem Closed.smallPath {r : BitVec 64} (h : Closed m r) (hp : ∀ j ∈ p, j < 512)
    (ht : node m r p = some t) : SmallPath p := by
  induction p using List.reverseRecOn generalizing t with
  | nil => simp [SmallPath]
  | append_singleton p i ih =>
    have hnode := ht
    rw [node_snoc, Option.bind_eq_some_iff] at hnode
    obtain ⟨t', ht', -⟩ := hnode
    have hsmall := ih (fun j hj => hp j (by simp [hj])) ht'
    by_contra hnot
    rw [h p i hsmall (hp i (by simp)) hnot] at ht
    cases ht

theorem smallPath_of_length (hp : ∀ j ∈ p, j < 512) (hn : p.length ≤ 2) : SmallPath p := by
  refine ⟨hp, fun h => ?_, fun j => ⟨fun h => ?_, fun h => ?_⟩⟩
  · exact absurd h.length_le (by simp; omega)
  · exact absurd h.length_le (by simp; omega)
  · exact absurd h.length_le (by simp; omega)

end Relis.Paging
