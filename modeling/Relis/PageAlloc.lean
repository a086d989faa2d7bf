import Relis.Code.PageAlloc
import Mathlib.Data.Finset.Card
import Mathlib.Data.Finset.Range
import Mathlib.Data.Finset.Max

/-!
# The page allocator hands out the lowest free page

The bitmap, the counter and the hint are three views of one set, `freePages`.
-/

open Relis.Bytes Relis.Run Relis.Code

namespace Relis.PageAlloc

variable {s s' : Mm} {i n : Nat} {p : Pmm}

/-! ## One bit -/

theorem page_used_eq (p : Pmm) (i : Nat) :
    p.page_used i = (p.pmm_bitmap (i / 64)).getLsbD (i % 64) := by
  have hlt : i % 64 < 64 := Nat.mod_lt _ (by omega)
  simp only [Pmm.page_used, page_bit, BITS_PER_WORD, ← BitVec.twoPow_eq, BitVec.and_twoPow]
  cases (p.pmm_bitmap (i / 64)).getLsbD (i % 64) with
  | false => simp
  | true =>
    simp only [if_true, bne_iff_ne, ne_eq]
    intro h
    have := congrArg (·.getLsbD (i % 64)) h
    simp [hlt] at this

theorem page_used_congr {p' : Pmm} (h : p'.pmm_bitmap = p.pmm_bitmap) (i : Nat) :
    p'.page_used i = p.page_used i := by
  rw [page_used_eq, page_used_eq, h]

theorem page_used_set_bit (p : Pmm) (i j : Nat) :
    (p.set_bit i).page_used j = (decide (j = i) || p.page_used j) := by
  have hi : i % 64 < 64 := Nat.mod_lt _ (by omega)
  have hj : j % 64 < 64 := Nat.mod_lt _ (by omega)
  simp only [page_used_eq, Pmm.set_bit, page_bit, BITS_PER_WORD, ← BitVec.twoPow_eq]
  by_cases hw : j / 64 = i / 64
  · have hji : j = i ↔ i % 64 = j % 64 := by omega
    rw [hw, Function.update_self, BitVec.getLsbD_or, BitVec.getLsbD_twoPow]
    simp [hi, hji, Bool.or_comm]
  · have hji : j ≠ i := fun h => hw (by rw [h])
    rw [Function.update_of_ne hw]
    simp [hji]

theorem page_used_clear_bit (p : Pmm) (i j : Nat) :
    (p.clear_bit i).page_used j = (decide (j ≠ i) && p.page_used j) := by
  have hi : i % 64 < 64 := Nat.mod_lt _ (by omega)
  have hj : j % 64 < 64 := Nat.mod_lt _ (by omega)
  simp only [page_used_eq, Pmm.clear_bit, page_bit, BITS_PER_WORD, ← BitVec.twoPow_eq]
  by_cases hw : j / 64 = i / 64
  · have hji : j = i ↔ i % 64 = j % 64 := by omega
    rw [hw, Function.update_self, BitVec.getLsbD_and, BitVec.getLsbD_not, BitVec.getLsbD_twoPow]
    simp [hi, hj, hji, Bool.and_comm]
  · have hji : j ≠ i := fun h => hw (by rw [h])
    rw [Function.update_of_ne hw]
    simp [hji]


/-! ## The set of free pages -/

def freePages (p : Pmm) : Finset Nat :=
  (Finset.range p.pmm_pages_total).filter fun i => p.page_used i = false

theorem mem_freePages : i ∈ freePages p ↔ i < p.pmm_pages_total ∧ p.page_used i = false := by
  simp [freePages]

/-- The counter counts the set, and no page below the hint is in it. -/
structure Inv (p : Pmm) : Prop where
  count : p.pmm_pages_free = (freePages p).card
  hint_le : p.next_free_page ≤ p.pmm_pages_total
  below_hint : ∀ i < p.next_free_page, p.page_used i = true

theorem Inv.free_le (h : Inv p) : p.pmm_pages_free ≤ 65536 := by
  have hcard := Finset.card_filter_le (Finset.range p.pmm_pages_total) (fun i => p.page_used i = false)
  have htotal := p.total_le
  rw [Finset.card_range] at hcard
  rw [h.count, freePages]
  simp only [MAX_PHYS_PAGES] at htotal
  omega

theorem Inv.hint_le_of_mem (h : Inv p) (hi : i ∈ freePages p) : p.next_free_page ≤ i := by
  rw [mem_freePages] at hi
  by_contra hlt
  have := h.below_hint i (by omega)
  rw [hi.2] at this
  exact Bool.false_ne_true this

/-! ## `pmm_init` -/

theorem mark_kernel_used (p : Pmm) (n i : Nat) :
    (mark_kernel p n).page_used i = (decide (i < n) || p.page_used i) := by
  induction n with
  | zero => simp [mark_kernel]
  | succ n ih =>
    rw [mark_kernel, List.range_succ, List.foldl_append, List.foldl_cons, List.foldl_nil,
      ← mark_kernel, page_used_set_bit, ih, ← Bool.or_assoc]
    congr 1
    simp only [← Bool.decide_or, decide_eq_decide]
    omega

theorem mark_kernel_hint (p : Pmm) (n : Nat) :
    (mark_kernel p n).next_free_page = p.next_free_page := by
  induction n with
  | zero => rfl
  | succ n ih =>
    rw [mark_kernel, List.range_succ, List.foldl_append, List.foldl_cons, List.foldl_nil,
      ← mark_kernel]
    exact ih

theorem mark_kernel_total (p : Pmm) (n : Nat) :
    (mark_kernel p n).pmm_pages_total = p.pmm_pages_total := by
  induction n with
  | zero => rfl
  | succ n ih =>
    rw [mark_kernel, List.range_succ, List.foldl_append, List.foldl_cons, List.foldl_nil,
      ← mark_kernel]
    exact ih

theorem pmm_init_used (s : Mm) (total_kb : BitVec 32) (kernel_end : BitVec 64) (i : Nat) :
    (pmm_init s total_kb kernel_end).pmm.page_used i = decide (i < kernel_pages kernel_end) := by
  have h := mark_kernel_used { s.pmm with pmm_bitmap := fun _ => 0 } (kernel_pages kernel_end) i
  have hzero : ({ s.pmm with pmm_bitmap := fun _ => 0 } : Pmm).page_used i = false := by
    simp [page_used_eq]
  rw [hzero, Bool.or_false] at h
  exact h

theorem pmm_init_inv (s : Mm) (total_kb : BitVec 32) (kernel_end : BitVec 64)
    (hstatic : s.pmm.next_free_page = 0)
    (hkernel : kernel_pages kernel_end ≤ (pmm_init s total_kb kernel_end).pmm.pmm_pages_total) :
    Inv (pmm_init s total_kb kernel_end).pmm := by
  have hhint : (pmm_init s total_kb kernel_end).pmm.next_free_page = 0 :=
    (mark_kernel_hint _ _).trans hstatic
  refine ⟨?_, by omega, by omega⟩
  have hset : freePages (pmm_init s total_kb kernel_end).pmm =
      Finset.range (pmm_init s total_kb kernel_end).pmm.pmm_pages_total \
        Finset.range (kernel_pages kernel_end) := by
    ext i
    simp [mem_freePages, pmm_init_used]
  have hsub : Finset.range (kernel_pages kernel_end) ⊆
      Finset.range (pmm_init s total_kb kernel_end).pmm.pmm_pages_total := by
    intro i hi
    rw [Finset.mem_range] at hi ⊢
    omega
  rw [hset, Finset.card_sdiff_of_subset hsub, Finset.card_range, Finset.card_range]
  have htotal := (pmm_init s total_kb kernel_end).pmm.total_le
  simp only [pmm_init, MAX_PHYS_PAGES, u32] at htotal hkernel ⊢
  omega

/-! ## `alloc_page` -/

theorem page_addr_toNat (h : i < 65536) :
    (BitVec.ofNat 64 i * BitVec.ofNat 64 PAGE_SIZE).toNat = 4096 * i := by
  simp only [PAGE_SIZE, BitVec.toNat_mul, BitVec.toNat_ofNat]
  omega

theorem freePages_of_set {p' : Pmm} (htotal : p'.pmm_pages_total = p.pmm_pages_total)
    (hused : ∀ j, p'.page_used j = (decide (j = i) || p.page_used j)) :
    freePages p' = (freePages p).erase i := by
  ext j
  rw [Finset.mem_erase, mem_freePages, mem_freePages, hused, htotal]
  simp only [Bool.or_eq_false_iff, decide_eq_false_iff_not]
  tauto

theorem freePages_of_clear {p' : Pmm} (htotal : p'.pmm_pages_total = p.pmm_pages_total)
    (hused : ∀ j, p'.page_used j = (decide (j ≠ i) && p.page_used j)) (h : i < p.pmm_pages_total) :
    freePages p' = insert i (freePages p) := by
  ext j
  rw [Finset.mem_insert, mem_freePages, mem_freePages, hused, htotal]
  by_cases hj : j = i
  · subst hj
    simp [h]
  · simp [hj]

structure Allocated (s s' : Mm) (i : Nat) : Prop where
  lt : i < s.pmm.pmm_pages_total
  was_free : s.pmm.page_used i = false
  hint_le : s.pmm.next_free_page ≤ i
  skipped : ∀ j, s.pmm.next_free_page ≤ j → j < i → s.pmm.page_used j = true
  used : ∀ j, s'.pmm.page_used j = (decide (j = i) || s.pmm.page_used j)
  total : s'.pmm.pmm_pages_total = s.pmm.pmm_pages_total
  count : s'.pmm.pmm_pages_free = u32 (s.pmm.pmm_pages_free + 4294967296 - 1)
  hint : s'.pmm.next_free_page = u32 (i + 1)
  mem : s'.mem = kmemset s.mem (4096 * i) 0 4096
  cr3 : s'.cr3 = s.cr3
  current_pgd : s'.current_pgd = s.current_pgd

theorem alloc_page_cases {phys : BitVec 64} (h : alloc_page s = .ok (phys, s')) :
    ∃ i, phys.toNat = 4096 * i ∧ Allocated s s' i := by
  unfold alloc_page at h
  simp only at h
  split at h
  · cases h
  · rename_i i hfind
    rw [List.find?_range'_eq_some] at hfind
    obtain ⟨hfree, hmem, hbefore⟩ := hfind
    rw [List.mem_range'_1] at hmem
    have htotal := s.pmm.total_le
    simp only [MAX_PHYS_PAGES] at htotal
    have haddr := page_addr_toNat (i := i) (by omega)
    simp only [Except.ok.injEq, Prod.mk.injEq] at h
    obtain ⟨rfl, rfl⟩ := h
    refine ⟨i, haddr, ⟨by omega, by simpa using hfree, hmem.1, ?_, ?_, rfl, rfl, rfl, ?_, rfl, rfl⟩⟩
    · intro j hle hlt
      simpa using hbefore j hle hlt
    · intro j
      refine Eq.trans (page_used_congr (p := s.pmm.set_bit i) ?_ j) (page_used_set_bit s.pmm i j)
      rfl
    · rw [haddr, PAGE_SIZE]

theorem Allocated.mem_free (h : Allocated s s' i) : i ∈ freePages s.pmm :=
  mem_freePages.mpr ⟨h.lt, h.was_free⟩

theorem Allocated.freePages_eq (h : Allocated s s' i) :
    freePages s'.pmm = (freePages s.pmm).erase i := freePages_of_set h.total h.used

theorem alloc_page_error {e : Halt} (h : alloc_page s = .error e) :
    e = .out_of_pages ∧
      ∀ i, s.pmm.next_free_page ≤ i → i < s.pmm.pmm_pages_total → s.pmm.page_used i = true := by
  unfold alloc_page at h
  simp only at h
  split at h
  · rename_i hfind
    rw [List.find?_range'_eq_none] at hfind
    cases h
    refine ⟨rfl, ?_⟩
    intro i hle hlt
    simpa using hfind i hle (by omega)
  · cases h

theorem alloc_page_inv {phys : BitVec 64} (hinv : Inv s.pmm)
    (h : alloc_page s = .ok (phys, s')) : Inv s'.pmm := by
  obtain ⟨i, -, ha⟩ := alloc_page_cases h
  have hcard := Finset.card_erase_add_one ha.mem_free
  have htotal := s.pmm.total_le
  have hle := hinv.free_le
  have hcount := hinv.count
  have hlt := ha.lt
  simp only [MAX_PHYS_PAGES] at htotal
  have hhint : s'.pmm.next_free_page = i + 1 := by rw [ha.hint, u32_of_lt (by omega)]
  refine ⟨?_, ?_, ?_⟩
  · rw [ha.freePages_eq, ha.count, u32_pred (by omega) (by omega)]
    omega
  · rw [ha.total]
    omega
  · intro j hj
    rw [ha.used]
    by_cases hji : j = i
    · simp [hji]
    · -- Below the hint all pages were used, and the scan found none from the hint to `i`.
      by_cases hh : j < s.pmm.next_free_page
      · simp [hinv.below_hint j hh]
      · simp [ha.skipped j (by omega) (by omega)]

/-! ## `free_page` -/

inductive Freed (s s' : Mm) (i : Nat) : Prop
  | ignored (h : s' = s)
  | cleared (hlt : i < s.pmm.pmm_pages_total) (hused : s.pmm.page_used i = true)
      (used : ∀ j, s'.pmm.page_used j = (decide (j ≠ i) && s.pmm.page_used j))
      (total : s'.pmm.pmm_pages_total = s.pmm.pmm_pages_total)
      (count : s'.pmm.pmm_pages_free = u32 (s.pmm.pmm_pages_free + 1))
      (hint : s'.pmm.next_free_page = min i s.pmm.next_free_page)

theorem free_page_cases (s : Mm) (phys : BitVec 64) :
    Freed s (free_page s phys) (u32 (phys.toNat / PAGE_SIZE)) := by
  unfold free_page
  dsimp only
  generalize u32 (phys.toNat / PAGE_SIZE) = i
  split_ifs with hout hused hlow
  · exact .ignored rfl
  all_goals
    have hbit : ∀ j (p : Pmm), p.pmm_bitmap = (s.pmm.clear_bit i).pmm_bitmap →
        p.page_used j = (decide (j ≠ i) && s.pmm.page_used j) := by
      intro j p hp
      rw [page_used_congr hp, page_used_clear_bit]
  · exact .cleared (by omega) hused (fun j => hbit j _ rfl) rfl rfl (by dsimp only; omega)
  · exact .cleared (by omega) hused (fun j => hbit j _ rfl) rfl rfl (by dsimp only; omega)
  · exact .ignored rfl

theorem free_page_inv (phys : BitVec 64) (hinv : Inv s.pmm) : Inv (free_page s phys).pmm := by
  cases free_page_cases s phys with
  | ignored h => rwa [h]
  | cleared hlt hused used total count hint =>
    have hnot : u32 (phys.toNat / PAGE_SIZE) ∉ freePages s.pmm := by simp [mem_freePages, hused]
    have hcard := Finset.card_insert_of_notMem hnot
    have hcount := hinv.count
    have hle := hinv.free_le
    have hhint := hinv.hint_le
    refine ⟨?_, by omega, ?_⟩
    · rw [freePages_of_clear total used hlt, count, u32_of_lt (by omega)]
      omega
    · intro j hj
      rw [used, hinv.below_hint j (by omega)]
      simp
      omega

theorem free_page_used (s : Mm) (phys : BitVec 64)
    (hlt : u32 (phys.toNat / PAGE_SIZE) < s.pmm.pmm_pages_total)
    (hused : s.pmm.page_used (u32 (phys.toNat / PAGE_SIZE)) = true) (j : Nat) :
    (free_page s phys).pmm.page_used j =
      (decide (j ≠ u32 (phys.toNat / PAGE_SIZE)) && s.pmm.page_used j) := by
  unfold free_page
  dsimp only
  rw [if_neg (by omega), if_pos hused]
  exact (page_used_congr rfl j).trans (page_used_clear_bit s.pmm _ j)

theorem free_page_bits (s : Mm) (phys : BitVec 64) {j : Nat} (hj : j < s.pmm.pmm_pages_total) :
    (free_page s phys).pmm.page_used j =
      (decide (j ≠ u32 (phys.toNat / PAGE_SIZE)) && s.pmm.page_used j) := by
  by_cases hlt : u32 (phys.toNat / PAGE_SIZE) < s.pmm.pmm_pages_total
  · by_cases hused : s.pmm.page_used (u32 (phys.toNat / PAGE_SIZE)) = true
    · exact free_page_used s phys hlt hused j
    · unfold free_page
      dsimp only
      rw [if_neg (by omega), if_neg hused]
      by_cases hji : j = u32 (phys.toNat / PAGE_SIZE)
      · simpa [hji] using hused
      · simp [hji]
  · unfold free_page
    dsimp only
    rw [if_pos (by omega), decide_eq_true (by omega), Bool.true_and]

theorem free_page_total (s : Mm) (phys : BitVec 64) :
    (free_page s phys).pmm.pmm_pages_total = s.pmm.pmm_pages_total := by
  cases free_page_cases s phys with
  | ignored h => rw [h]
  | cleared _ _ _ total => exact total

def Managed (p : Pmm) (phys : BitVec 64) : Prop :=
  phys.toNat < 4096 * p.pmm_pages_total ∧ p.page_used (phys.toNat / 4096) = true

/-- The statics after a free of `phys`. Nothing changes but the bit of its page, if that is managed. -/
structure FreesItsPage (p p' : Pmm) (phys : BitVec 64) : Prop where
  same : ¬ Managed p phys → p' = p
  cleared : Managed p phys → ∀ j, p'.page_used j = (decide (j ≠ phys.toNat / 4096) && p.page_used j)

/-- An address from 2^44 on whose page number, cut to 32 bits, is that of a used page. -/
def Aliased (p : Pmm) (phys : BitVec 64) : Prop :=
  2 ^ 44 ≤ phys.toNat ∧ u32 (phys.toNat / 4096) < p.pmm_pages_total ∧
    p.page_used (u32 (phys.toNat / 4096)) = true

/-- The address of a page that is not managed is only taken for another one if it is `Aliased`. -/
theorem free_page_iff (s : Mm) (phys : BitVec 64) :
    FreesItsPage s.pmm (free_page s phys).pmm phys ↔ ¬ Aliased s.pmm phys := by
  have htotal := s.pmm.total_le
  unfold MAX_PHYS_PAGES at htotal
  constructor
  · rintro ⟨hsame, -⟩ ⟨hhigh, hlt, hused⟩
    have hout : ¬ Managed s.pmm phys := by
      rintro ⟨hin, -⟩
      omega
    have hbit := free_page_used s phys hlt hused (u32 (phys.toNat / 4096))
    rw [hsame hout, hused] at hbit
    simp [PAGE_SIZE] at hbit
  · intro halias
    have hlow : phys.toNat < 4096 * s.pmm.pmm_pages_total →
        u32 (phys.toNat / PAGE_SIZE) = phys.toNat / 4096 := by
      intro hin
      exact u32_of_lt (by unfold PAGE_SIZE; omega)
    constructor
    · intro hout
      cases free_page_cases s phys with
      | ignored h => rw [h]
      | cleared hlt hused =>
        -- the page number is not cut, so the page is managed
        refine absurd ?_ hout
        have hsmall : phys.toNat < 2 ^ 44 := by
          by_contra hge
          exact halias ⟨by omega, hlt, hused⟩
        have hpage : u32 (phys.toNat / PAGE_SIZE) = phys.toNat / 4096 :=
          u32_of_lt (by unfold PAGE_SIZE; omega)
        rw [hpage] at hlt hused
        exact ⟨by omega, hused⟩
    · rintro ⟨hin, hused⟩ j
      rw [← hlow hin] at hused ⊢
      exact free_page_used s phys (by rw [hlow hin]; omega) hused j

/-- A free of 2^44 after `pmm_init` frees page 0, which holds the first page of the kernel. -/
theorem free_page_of_alias :
    ¬ FreesItsPage (pmm_init ⟨Pmm.zero, fun _ => 0, 0, none⟩ 262144 0xFFFFFFFF80002000).pmm
    (free_page (pmm_init ⟨Pmm.zero, fun _ => 0, 0, none⟩ 262144 0xFFFFFFFF80002000)
      0x100000000000).pmm
    0x100000000000 := by
  rintro ⟨hsame, -⟩
  have hout : ¬ Managed (pmm_init ⟨Pmm.zero, fun _ => 0, 0, none⟩ 262144 0xFFFFFFFF80002000).pmm
      0x100000000000 := by
    rintro ⟨hin, -⟩
    revert hin
    decide
  have hbit := congrArg (fun p => p.page_used 0) (hsame hout)
  revert hbit
  decide

/-! ## Calls -/

inductive Op
  | alloc_page
  | free_page (phys : BitVec 64)

def step (s : Mm) : Op → Except Halt Mm
  | .alloc_page => do
    let (_, s) ← alloc_page s
    return s
  | .free_page phys => return free_page s phys

def start (m : Mm) (total_kb : BitVec 32) (kernel_end : BitVec 64) : Mm :=
  pmm_init { m with pmm := Pmm.zero } total_kb kernel_end

/-! ## The lowest free page -/

/-- The answer of `alloc_page` if it would scan all pages from 0. -/
def fullScan (total : Nat) (used : Nat → Bool) : Except Halt Nat :=
  match (List.range total).find? (fun i => !used i) with
  | some i => .ok (4096 * i)
  | none => .error .out_of_pages

theorem alloc_page_fullScan (hinv : Inv s.pmm) :
    (alloc_page s).map (·.1.toNat) = fullScan s.pmm.pmm_pages_total s.pmm.page_used := by
  cases halloc : alloc_page s with
  | error e =>
    obtain ⟨rfl, hall⟩ := alloc_page_error halloc
    have hscan : (List.range s.pmm.pmm_pages_total).find? (fun i => !s.pmm.page_used i) = none := by
      rw [List.find?_range_eq_none]
      intro i hi
      by_cases hh : i < s.pmm.next_free_page
      · simp [hinv.below_hint i hh]
      · simp [hall i (by omega) hi]
    rw [fullScan, hscan]
    rfl
  | ok r =>
    obtain ⟨phys, s'⟩ := r
    obtain ⟨i, hphys, ha⟩ := alloc_page_cases halloc
    have hscan : (List.range s.pmm.pmm_pages_total).find? (fun i => !s.pmm.page_used i) = some i := by
      rw [List.find?_range_eq_some]
      refine ⟨by simp [ha.was_free], by simpa using ha.lt, ?_⟩
      intro j hj
      by_cases hh : j < s.pmm.next_free_page
      · simp [hinv.below_hint j hh]
      · simp [ha.skipped j (by omega) hj]
    rw [fullScan, hscan]
    simp [Except.map, hphys]

theorem alloc_page_halts_iff (hinv : Inv s.pmm) :
    alloc_page s = .error .out_of_pages ↔ s.pmm.pmm_pages_free = 0 := by
  rw [hinv.count, Finset.card_eq_zero]
  constructor
  · intro h
    obtain ⟨-, hall⟩ := alloc_page_error h
    apply Finset.eq_empty_of_forall_notMem
    intro i hi
    have hhint := hinv.hint_le_of_mem hi
    rw [mem_freePages] at hi
    have := hall i hhint hi.1
    rw [hi.2] at this
    exact Bool.false_ne_true this
  · intro hempty
    cases h : alloc_page s with
    | error e => rw [(alloc_page_error h).1]
    | ok r =>
      obtain ⟨phys, s'⟩ := r
      obtain ⟨i, -, ha⟩ := alloc_page_cases h
      have := ha.mem_free
      rw [hempty] at this
      exact absurd this (Finset.notMem_empty i)

structure Pool (n : Nat) (s : Mm) : Prop where
  inv : Inv s.pmm
  enough : n ≤ s.pmm.pmm_pages_free

theorem Pool.le {k : Nat} (h : Pool n s) (hk : k ≤ n) : Pool k s :=
  ⟨h.inv, hk.trans h.enough⟩

theorem Pool.of_pmm (h : Pool n s) (hpmm : s'.pmm = s.pmm) : Pool n s' :=
  ⟨by rw [hpmm]; exact h.inv, by rw [hpmm]; exact h.enough⟩

theorem Pool.of_card (hinv : Inv s.pmm) (h : n ≤ (freePages s.pmm).card) : Pool n s :=
  ⟨hinv, hinv.count ▸ h⟩

theorem Pool.card (h : Pool n s) : n ≤ (freePages s.pmm).card := h.inv.count ▸ h.enough

theorem alloc_page_pool (h : Pool (n + 1) s) :
    ∃ phys s', alloc_page s = .ok (phys, s') ∧ Pool n s' := by
  cases halloc : alloc_page s with
  | error e =>
    have hzero := halloc
    rw [(alloc_page_error halloc).1, alloc_page_halts_iff h.inv] at hzero
    have := h.enough
    omega
  | ok r =>
    obtain ⟨phys, s'⟩ := r
    obtain ⟨i, -, ha⟩ := alloc_page_cases halloc
    refine ⟨phys, s', rfl, alloc_page_inv h.inv halloc, ?_⟩
    have hle := h.inv.free_le
    have henough := h.enough
    rw [ha.count, u32_pred (by omega) (by omega)]
    omega

end Relis.PageAlloc
