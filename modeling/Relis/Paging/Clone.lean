import Mathlib.Algebra.BigOperators.Group.List.Basic
import Relis.Paging.Copy

/-!
# `clone_address_space`

All that the clone writes was free in `s0`, the state before the call, so the parent can be
read there throughout.
-/

open Relis.Bytes Relis.Run Relis.Code Relis.PageAlloc

namespace Relis.Paging

variable {s0 s s' : Mm} {b d i : Nat} {old new f : BitVec 64}

theorem Only.absorb {W : Set Nat} (h0 : Only ∅ s0 s) (h : Only W s s') (hW : W ⊆ freePages s0.pmm) :
    Only ∅ s0 s' := by
  refine ⟨h.free.trans h0.free, fun k hk => h.used k (h0.used k hk), ?_, h.cr3.trans h0.cr3,
    h.current_pgd.trans h0.current_pgd⟩
  intro k hk _ x hx
  rw [h.same k (fun hf => hk (h0.free hf)) (fun hw => hk (hW hw)) x hx,
    h0.same k hk (Set.notMem_empty k) x hx]

/-- The table `new` was taken after `s0`, and its first `b` entries are empty. -/
structure Blank (s0 s : Mm) (b : Nat) (new : BitVec 64) : Prop where
  since : Only ∅ s0 s
  aligned : Aligned new
  taken : pageOf new ∉ freePages s.pmm
  was_free : pageOf new ∈ freePages s0.pmm
  zero : ∀ i < b, table_get s.mem new i = 0

theorem Blank.later (h : Blank s0 s b new) (honly : Only {pageOf new} s s') : Blank s0 s' 0 new := by
  refine ⟨h.since.absorb honly ?_, h.aligned, fun hmem => h.taken (honly.free hmem),
    h.was_free, by omega⟩
  rintro k rfl
  exact h.was_free

theorem Parent.root_mem (hd : d ≤ 4) : pageOf old ∈ framesAt s0.mem b d old :=
  ⟨[], old, trivial, by simpa using hd, rfl, rfl⟩

theorem Parent.get (h : Parent b d s0 old) (hd : d ≤ 4) (hs : Only ∅ s0 s) (hi : i < 512) :
    table_get s.mem old i = table_get s0.mem old i :=
  (hs.same _ (h.kept _ (Parent.root_mem hd)) (Set.notMem_empty _)).table_get h.aligned hi

def entryNeed (below : BitVec 64 → Nat) (d : Nat) (e : BitVec 64) : Nat :=
  if has e PTE_PRESENT && !(d == 2 && has e PTE_HUGE) then 1 + below (pte_addr e) else 0

def need (m : Mem) : Nat → BitVec 64 → Nat
  | 0, _ => 0
  | n + 1, t => ((List.range' 0 512).map fun i => entryNeed (need m n) (3 - n) (table_get m t i)).sum

/-- `inner` copies a table at depth `d`, and goes on to its end if there are pages enough. -/
structure Clones (s0 : Mm) (d : Nat) (inner : BitVec 64 → BitVec 64 → Mm → Except Halt Mm) : Prop where
  copy : ∀ old new s s', Parent 512 d s0 old → Blank s0 s 512 new → inner old new s = .ok s' →
    Only {pageOf new} s s' ∧ Copy 512 d s0.mem (freePages s.pmm) s' old new
  total : ∀ old new s n, Parent 512 d s0 old → Blank s0 s 512 new →
    Pool (n + need s0.mem (4 - d) old) s → ∃ s', inner old new s = .ok s' ∧ Pool n s'

/-! ## Entries that lead nowhere -/

theorem entryStep_absent (h : has (table_get s0.mem old i) PTE_PRESENT = false)
    (hzero : table_get s.mem new i = 0) : EntryStep d s0.mem s s old new i :=
  ⟨Only.refl _ _, fun _ _ _ => rfl, .absent h hzero⟩

theorem entryStep_huge (hnew : Aligned new) (hi : i < 512) (hd : d = 2)
    (hp : has (table_get s0.mem old i) PTE_PRESENT = true)
    (hh : has (table_get s0.mem old i) PTE_HUGE = true) :
    EntryStep d s0.mem s (table_set s new i (table_get s0.mem old i)) old new i := by
  refine ⟨only_table_set s _ hnew hi, ?_, .huge hd hp hh ?_⟩
  · intro j hj hji
    rw [table_get_set s _ hnew hnew hi hj, if_neg (fun h => hji h.2)]
  · rw [table_get_set s _ hnew hnew hi hi, if_pos ⟨rfl, rfl⟩]

/-! ## Entries with a table -/

theorem NewPage.blank {s1 : Mm} (hf : NewPage s s1 f) (hnew : Blank s0 s 0 new) (hi : i < 512)
    (e : BitVec 64) : Blank s0 (table_set s1 new i e) 512 f := by
  have hfn : pageOf new ≠ pageOf f := hf.ne_of_not_free hnew.taken
  have hset := only_table_set s1 e hnew.aligned hi
  refine ⟨(hnew.since.trans hf.only).absorb hset ?_, hf.aligned, ?_, hnew.since.free hf.was_free, ?_⟩
  · rintro k rfl
    exact hnew.was_free
  · rw [table_set_pmm, hf.free_eq]
    simp
  · intro j hj
    rw [table_get_set s1 _ hnew.aligned hf.aligned hi hj, hf.table_get_zero hj, if_neg]
    rintro ⟨heq, -⟩
    exact hfn (congrArg pageOf heq.symm)

variable {inner : BitVec 64 → BitVec 64 → Mm → Except Halt Mm}

theorem clone_entry_step (hinner : Clones s0 (d + 1) inner) (hpar : Parent b d s0 old) (hb : b ≤ 512)
    (hd : d ≤ 3) (hi : i < b) (hnew : Blank s0 s 0 new)
    (hp : has (table_get s0.mem old i) PTE_PRESENT = true)
    (hsmall : d = 1 ∨ d = 2 → has (table_get s0.mem old i) PTE_HUGE = false)
    (h : clone_entry inner old new i s = .ok s') : EntryStep d s0.mem s s' old new i := by
  unfold clone_entry at h
  simp only [bind_ok] at h
  obtain ⟨⟨f, s1⟩, halloc, h⟩ := h
  have hf := alloc_page_new halloc
  have hfn : pageOf new ≠ pageOf f := hf.ne_of_not_free hnew.taken
  dsimp only at h
  rw [hpar.get (by omega) hnew.since (by omega),
    hpar.get (by omega) (hnew.since.trans hf.only) (by omega)] at h
  have hset := only_table_set s1 (f ||| pte_flags (table_get s0.mem old i)) hnew.aligned
    (show i < 512 by omega)
  have hblank := hf.blank hnew (show i < 512 by omega) (f ||| pte_flags (table_get s0.mem old i))
  have hget : ∀ j < 512,
      table_get (table_set s1 new i (f ||| pte_flags (table_get s0.mem old i))).mem new j =
      if j = i then cloneEntry f (table_get s0.mem old i) else table_get s.mem new j := by
    intro j hj
    rw [table_get_set s1 _ hnew.aligned hnew.aligned (by omega) hj,
      (hf.same _ hfn).table_get hnew.aligned hj]
    simp [cloneEntry]
  generalize table_set s1 new i (f ||| pte_flags (table_get s0.mem old i)) = s2 at *
  obtain ⟨honly, hcopy⟩ := hinner.copy _ _ _ _ (hpar.child hi (child_of_small hp hsmall)) hblank h
  have htaken : pageOf new ∉ freePages s2.pmm := by
    intro hmem
    exact hnew.taken ((hset.free.trans hf.only.free) hmem)
  have hsame : ∀ j < 512, table_get s'.mem new j = table_get s2.mem new j :=
    fun j hj => (honly.same _ htaken hfn).table_get hnew.aligned hj
  refine ⟨?_, ?_, .small f hp hsmall hf.addr hf.was_free ?_ ?_ (hcopy.mono ?_)⟩
  · refine ⟨honly.free.trans (hset.free.trans hf.only.free),
      fun k hk => honly.used k (hset.used k (hf.only.used k hk)), ?_,
      honly.cr3.trans (hset.cr3.trans hf.cr3),
      honly.current_pgd.trans (hset.current_pgd.trans hf.current_pgd)⟩
    intro k hk hkn x hx
    have hk1 : k ∉ freePages s1.pmm := fun hmem => hk (hf.only.free hmem)
    rw [honly.same k (fun hmem => hk1 (hset.free hmem)) (hf.ne_of_not_free hk) x hx,
      hset.same k hk1 hkn x hx, hf.same k (hf.ne_of_not_free hk) x hx]
  · intro j hj hji
    rw [hsame j hj, hget j hj, if_neg hji]
  · apply honly.used
    apply hset.used
    rw [hf.used]
    simp
  · rw [hsame i (by omega), hget i (by omega), if_pos rfl]
  · exact hset.free.trans hf.only.free

theorem clone_entry_total {n : Nat} (hinner : Clones s0 (d + 1) inner) (hpar : Parent b d s0 old)
    (hb : b ≤ 512) (hd : d ≤ 3) (hi : i < b) (hnew : Blank s0 s 0 new)
    (hp : has (table_get s0.mem old i) PTE_PRESENT = true)
    (hsmall : d = 1 ∨ d = 2 → has (table_get s0.mem old i) PTE_HUGE = false)
    (h : Pool (n + (1 + need s0.mem (4 - (d + 1)) (pte_addr (table_get s0.mem old i)))) s) :
    ∃ s', clone_entry inner old new i s = .ok s' ∧ Pool n s' := by
  rw [Nat.add_comm 1, ← Nat.add_assoc] at h
  obtain ⟨f, s1, halloc, hpool⟩ := alloc_page_pool h
  have hf := alloc_page_new halloc
  have hblank := hf.blank hnew (show i < 512 by omega) (f ||| pte_flags (table_get s0.mem old i))
  obtain ⟨s', hrun, hend⟩ := hinner.total _ _ _ n (hpar.child hi (child_of_small hp hsmall)) hblank
    (hpool.of_pmm (table_set_pmm s1 new i _))
  refine ⟨s', ?_, hend⟩
  simp only [clone_entry, bind_ok]
  refine ⟨(f, s1), halloc, ?_⟩
  dsimp only
  rw [hpar.get (by omega) hnew.since (by omega),
    hpar.get (by omega) (hnew.since.trans hf.only) (by omega)]
  exact hrun

/-! ## Entries with a page -/

theorem copy_page {F : Finset Nat} {m0 : Mem} (h : SameBytes m0 s.mem old new) :
    Copy 512 4 m0 F s old new := by
  have hnil : ∀ p : List Nat, 4 + p.length ≤ 4 → p = [] :=
    fun p hp => List.eq_nil_of_length_eq_zero (by omega)
  refine ⟨?_, ?_, by omega, ?_⟩
  · intro p t hne _ hn
    exact absurd (hnil p hn) hne
  · intro p q t _ _ hn hn' _ _
    rw [hnil p hn, hnil q hn']
  · intro p t _ hn ht
    obtain rfl := hnil p (by omega)
    cases ht
    exact ⟨new, rfl, h⟩

theorem clone_page_step (hpar : Parent 512 3 s0 old) (hi : i < 512) (hnew : Blank s0 s 0 new)
    (hp : has (table_get s0.mem old i) PTE_PRESENT = true) {s1 : Mm}
    (halloc : alloc_page s = .ok (f, s1)) {s2 : Mm}
    (hs2 : s2 = { s1 with mem := kmemcpy s1.mem f.toNat (pte_addr (table_get s0.mem old i)).toNat PAGE_SIZE }) :
    EntryStep 3 s0.mem s (table_set s2 new i (f ||| pte_flags (table_get s2.mem old i))) old new i := by
  have hf := alloc_page_new halloc
  have hfn : pageOf new ≠ pageOf f := hf.ne_of_not_free hnew.taken
  have hs1 : Only ∅ s0 s1 := hnew.since.trans hf.only
  -- The page of the parent is not the new one.
  have hpage : pageOf (pte_addr (table_get s0.mem old i)) ∉ freePages s0.pmm := by
    apply hpar.kept
    refine ⟨[i], _, ⟨hi, trivial⟩, by simp, ?_, rfl⟩
    rw [nodeAt_cons, child_of_small hp (by omega), Option.bind_some, nodeAt_nil]
  have hsrc := addr_aligned (table_get s0.mem old i)
  generalize hx : pte_addr (table_get s0.mem old i) = src at hs2 hpage hsrc
  have hne : pageOf src ≠ pageOf f := by
    intro heq
    rw [heq] at hpage
    exact hpage (hnew.since.free hf.was_free)
  have hcopy : Only {pageOf f} s1 s2 := by
    rw [hs2]
    exact only_kmemcpy _ hf.aligned
  have hold : table_get s2.mem old i = table_get s0.mem old i := by
    apply hpar.get (by omega) (hs1.absorb hcopy _) hi
    rintro k rfl
    exact hnew.since.free hf.was_free
  rw [hold, ← cloneEntry]
  have htaken : pageOf new ∉ freePages s1.pmm := fun hmem => hnew.taken (hf.only.free hmem)
  have hset := only_table_set s2 (cloneEntry f (table_get s0.mem old i)) hnew.aligned hi
  have hget : ∀ j < 512, table_get s2.mem new j = table_get s.mem new j := by
    intro j hj
    rw [(hcopy.same _ htaken hfn).table_get hnew.aligned hj, (hf.same _ hfn).table_get hnew.aligned hj]
  refine ⟨?_, ?_, .small f hp (by omega) hf.addr hf.was_free ?_ ?_ (copy_page ?_)⟩
  · refine ⟨hset.free.trans (hcopy.free.trans hf.only.free),
      fun k hk => hset.used k (hcopy.used k (hf.only.used k hk)), ?_,
      hset.cr3.trans (hcopy.cr3.trans hf.cr3),
      hset.current_pgd.trans (hcopy.current_pgd.trans hf.current_pgd)⟩
    intro k hk hkn x hx
    have hk1 : k ∉ freePages s1.pmm := fun hmem => hk (hf.only.free hmem)
    rw [hset.same k (fun hmem => hk1 (hcopy.free hmem)) hkn x hx,
      hcopy.same k hk1 (hf.ne_of_not_free hk) x hx, hf.same k (hf.ne_of_not_free hk) x hx]
  · intro j hj hji
    rw [table_get_set s2 _ hnew.aligned hnew.aligned hi hj, if_neg (fun h => hji h.2), hget j hj]
  · apply hset.used
    apply hcopy.used
    rw [hf.used]
    simp
  · rw [table_get_set s2 _ hnew.aligned hnew.aligned hi hi, if_pos ⟨rfl, rfl⟩]
  · intro x hlt
    have halign := hf.aligned
    unfold Aligned at halign hsrc
    unfold pageOf at hne
    rw [hx, samePage_table_set s2 _ hnew.aligned hi (Ne.symm hfn) (f.toNat + x)
      (by unfold pageOf; omega), hs2]
    dsimp only
    rw [kmemcpy_apply _ _ _ _ _ (by unfold PAGE_SIZE; omega), if_pos (by unfold PAGE_SIZE; omega),
      Nat.add_sub_cancel_left]
    exact hs1.same _ hpage (Set.notMem_empty _) (src.toNat + x) (by unfold pageOf; omega)

/-! ## The four levels -/

def needAt (m : Mem) (d : Nat) (e : BitVec 64) : Nat := entryNeed (need m (3 - d)) d e

structure ClonesEntry (s0 : Mm) (b d : Nat)
    (entry : BitVec 64 → BitVec 64 → Nat → Mm → Except Halt Mm) : Prop where
  step : ∀ old new i s s', Parent b d s0 old → i < b → Blank s0 s 0 new → table_get s.mem new i = 0 →
    entry old new i s = .ok s' → EntryStep d s0.mem s s' old new i
  total : ∀ old new i s n, Parent b d s0 old → i < b → Blank s0 s 0 new →
    Pool (n + needAt s0.mem d (table_get s0.mem old i)) s → ∃ s', entry old new i s = .ok s' ∧ Pool n s'

variable {entry : BitVec 64 → BitVec 64 → Nat → Mm → Except Halt Mm}

theorem clones_loop (hentry : ClonesEntry s0 512 d entry) (hd : d ≤ 3) :
    Clones s0 d (fun old new => loop 0 512 (entry old new)) := by
  refine ⟨?_, ?_⟩
  · intro old new s s' hpar hblank h
    have hloop := copy_loop d s0.mem old (le_refl 512) hd hblank.taken hblank.zero
      (fun i s1 s2 hi honly => hentry.step old new i s1 s2 hpar hi (hblank.later honly)) h
    exact ⟨hloop.1, hloop.2.1⟩
  · intro old new s n hpar hblank hpool
    apply copy_loop_total d s0.mem old (le_refl 512) hblank.taken hblank.zero
      (fun i s1 s2 hi honly => hentry.step old new i s1 s2 hpar hi (hblank.later honly))
      (fun i s1 k hi honly => hentry.total old new i s1 k hpar hi (hblank.later honly))
    rwa [show 4 - d = 3 - d + 1 by omega, need, show 3 - (3 - d) = d by omega] at hpool

theorem clones_pt (s0 : Mm) : Clones s0 3 clone_pt := by
  apply clones_loop _ (le_refl 3)
  refine ⟨?_, ?_⟩
  · intro old new i s s' hpar hi hnew hzero h
    unfold clone_pt_entry at h
    rw [hpar.get (by omega) hnew.since hi] at h
    split_ifs at h with hp
    · cases h
      exact entryStep_absent (by simpa using hp) hzero
    · rw [bind_ok] at h
      obtain ⟨⟨f, s1⟩, halloc, h⟩ := h
      cases h
      exact clone_page_step hpar hi hnew (by simpa using hp) halloc rfl
  · intro old new i s n hpar hi hnew hpool
    unfold clone_pt_entry
    rw [hpar.get (by omega) hnew.since hi]
    split_ifs with hp
    · exact ⟨s, rfl, hpool.le (by omega)⟩
    · have hone : needAt s0.mem 3 (table_get s0.mem old i) = 1 := by
        simp only [Bool.not_eq_true', Bool.not_eq_false] at hp
        simp [needAt, entryNeed, hp, need]
      rw [hone] at hpool
      obtain ⟨f, s1, halloc, hpool⟩ := alloc_page_pool hpool
      simp only [bind_ok]
      exact ⟨_, ⟨(f, s1), halloc, rfl⟩, hpool.inv, hpool.enough⟩

theorem clones_pd (s0 : Mm) : Clones s0 2 clone_pd := by
  apply clones_loop _ (by omega)
  refine ⟨?_, ?_⟩
  · intro old new i s s' hpar hi hnew hzero h
    unfold clone_pd_entry at h
    rw [hpar.get (by omega) hnew.since hi] at h
    split_ifs at h with hp hh
    · cases h
      exact entryStep_absent (by simpa using hp) hzero
    · cases h
      exact entryStep_huge hnew.aligned hi rfl (by simpa using hp) hh
    · exact clone_entry_step (clones_pt s0) hpar (le_refl 512) (by omega) hi hnew (by simpa using hp)
        (fun _ => by simpa using hh) h
  · intro old new i s n hpar hi hnew hpool
    unfold clone_pd_entry
    rw [hpar.get (by omega) hnew.since hi]
    split_ifs with hp hh
    · exact ⟨s, rfl, hpool.le (by omega)⟩
    · exact ⟨_, rfl, (hpool.le (by omega)).of_pmm (table_set_pmm s new i _)⟩
    · simp only [Bool.not_eq_true', Bool.not_eq_false, Bool.not_eq_true] at hp hh
      apply clone_entry_total (clones_pt s0) hpar (le_refl 512) (by omega) hi hnew hp (fun _ => hh)
      simpa [needAt, entryNeed, hp, hh] using hpool

theorem clones_pdpt (s0 : Mm) : Clones s0 1 clone_pdpt := by
  apply clones_loop _ (by omega)
  refine ⟨?_, ?_⟩
  · intro old new i s s' hpar hi hnew hzero h
    unfold clone_pdpt_entry at h
    rw [hpar.get (by omega) hnew.since hi] at h
    split_ifs at h with hp
    · cases h
      exact entryStep_absent (by simpa using hp) hzero
    · -- Here the code does not look at the huge bit.
      simp only [Bool.not_eq_true', Bool.not_eq_false] at hp
      have hsmall := hpar.small [] i ⟨hi, trivial⟩ rfl hp
      exact clone_entry_step (clones_pd s0) hpar (le_refl 512) (by omega) hi hnew hp (fun _ => hsmall) h
  · intro old new i s n hpar hi hnew hpool
    unfold clone_pdpt_entry
    rw [hpar.get (by omega) hnew.since hi]
    split_ifs with hp
    · exact ⟨s, rfl, hpool.le (by omega)⟩
    · simp only [Bool.not_eq_true', Bool.not_eq_false] at hp
      have hsmall := hpar.small [] i ⟨hi, trivial⟩ rfl hp
      apply clone_entry_total (clones_pd s0) hpar (le_refl 512) (by omega) hi hnew hp (fun _ => hsmall)
      simpa [needAt, entryNeed, hp] using hpool

theorem clones_pml4_entry (s0 : Mm) : ClonesEntry s0 256 0 clone_pml4_entry := by
  refine ⟨?_, ?_⟩
  · intro old new i s s' hpar hi hnew hzero h
    unfold clone_pml4_entry at h
    rw [hpar.get (by omega) hnew.since (by omega)] at h
    split_ifs at h with hp
    · cases h
      exact entryStep_absent (by simpa using hp) hzero
    · exact clone_entry_step (clones_pdpt s0) hpar (by omega) (by omega) hi hnew (by simpa using hp)
        (by omega) h
  · intro old new i s n hpar hi hnew hpool
    unfold clone_pml4_entry
    rw [hpar.get (by omega) hnew.since (by omega)]
    split_ifs with hp
    · exact ⟨s, rfl, hpool.le (by omega)⟩
    · simp only [Bool.not_eq_true', Bool.not_eq_false] at hp
      apply clone_entry_total (clones_pdpt s0) hpar (by omega) (by omega) hi hnew hp (by omega)
      simpa [needAt, entryNeed, hp] using hpool

theorem clone_pml4_spec (hpar : Parent 256 0 s0 old) (hblank : Blank s0 s 256 new)
    (h : clone_pml4 old new s = .ok s') :
    Only {pageOf new} s s' ∧ Copy 256 0 s0.mem (freePages s.pmm) s' old new ∧
      ∀ j < 512, 256 ≤ j → table_get s'.mem new j = table_get s.mem new j :=
  copy_loop 0 s0.mem old (by omega) (by omega) hblank.taken hblank.zero
    (fun i s1 s2 hi honly => (clones_pml4_entry s0).step old new i s1 s2 hpar hi (hblank.later honly)) h

theorem clone_pml4_total {n : Nat} (hpar : Parent 256 0 s0 old) (hblank : Blank s0 s 256 new)
    (hpool : Pool (n + ((List.range' 0 256).map fun i =>
      needAt s0.mem 0 (table_get s0.mem old i)).sum) s) : ∃ s', clone_pml4 old new s = .ok s' ∧ Pool n s' :=
  copy_loop_total 0 s0.mem old (by omega) hblank.taken hblank.zero
    (fun i s1 s2 hi honly => (clones_pml4_entry s0).step old new i s1 s2 hpar hi (hblank.later honly))
    (fun i s1 k hi honly => (clones_pml4_entry s0).total old new i s1 k hpar hi
      (hblank.later honly)) hpool

structure Cloned (s s' : Mm) (new : BitVec 64) : Prop where
  aligned : Aligned new
  addr : pte_addr new = new
  was_free : pageOf new ∈ freePages s.pmm
  used : s'.pmm.page_used (pageOf new) = true
  only : Only ∅ s s'
  copy : Copy 256 0 s.mem (freePages s.pmm) s' (pte_addr s.cr3) new
  kernel : ∀ i, 256 ≤ i → i < 512 → table_get s'.mem new i = table_get s.mem (pte_addr s.cr3) i

theorem NewPage.blank_root {s1 s2 : Mm} (hf : NewPage s s1 f) {old : BitVec 64}
    (hhalf : copy_kernel_half (pte_addr old) f s1 = .ok s2) : Blank s s2 256 f := by
  obtain ⟨hpmm, honly, hget⟩ := copy_kernel_half_spec (addr_aligned _) hf.aligned hhalf
  refine ⟨hf.only.absorb honly ?_, hf.aligned, ?_, hf.was_free, ?_⟩
  · rintro k rfl
    exact hf.was_free
  · rw [hpmm, hf.free_eq]
    simp
  · intro i hi
    rw [hget i (by omega), if_neg (by omega), hf.table_get_zero (by omega)]

theorem clone_address_space_spec (hpar : Parent 256 0 s (pte_addr s.cr3))
    (h : clone_address_space s = .ok (new, s')) : Cloned s s' new := by
  unfold clone_address_space at h
  rw [bind_ok] at h
  obtain ⟨⟨f, s1⟩, halloc, h⟩ := h
  simp only [bind_ok] at h
  obtain ⟨s2, hhalf, s3, hclone, h⟩ := h
  cases h
  have hf := alloc_page_new halloc
  rw [hf.cr3] at hhalf hclone
  obtain ⟨hpmm, honly, hget⟩ := copy_kernel_half_spec (addr_aligned _) hf.aligned hhalf
  have hwas : ({pageOf new} : Set Nat) ⊆ freePages s.pmm := by
    rintro k rfl
    exact hf.was_free
  have hblank := hf.blank_root hhalf
  obtain ⟨honly', hcopy, hrest⟩ := clone_pml4_spec hpar hblank hclone
  refine ⟨hf.aligned, hf.addr, hf.was_free, ?_, hblank.since.absorb honly' hwas, ?_, ?_⟩
  · apply honly'.used
    rw [hpmm, hf.used]
    simp
  · apply hcopy.mono
    rw [hpmm, hf.free_eq]
    exact Finset.erase_subset _ _
  · intro i hlo hhi
    rw [hrest i hhi hlo, hget i hhi, if_pos hlo, hpar.get (by omega) hf.only hhi]

/-! ## What a clone is to its user -/

def userFrames (m : Mem) (r : BitVec 64) : Set Nat :=
  {k | ∃ p t, UserPath p ∧ p.length ≤ 4 ∧ node m r p = some t ∧ k = pageOf t}

/-- A user half with 4 KiB pages and 2 MiB entries, all of it in frames that are not free. -/
structure UserTree (s : Mm) (r : BitVec 64) : Prop where
  kept : ∀ k ∈ userFrames s.mem r, k ∉ freePages s.pmm
  no_giant : ∀ i j, UserPath [i, j] → has (slot s.mem r [i] j) PTE_PRESENT = true →
    has (slot s.mem r [i] j) PTE_HUGE = false

theorem framesAt_root (m : Mem) (r : BitVec 64) : framesAt m 256 0 r = userFrames m r := by
  ext k
  simp only [framesAt, userFrames, Set.mem_ofPred_eq, userPath_iff, Nat.zero_add]
  exact Iff.rfl

theorem UserTree.parent {r : BitVec 64} (h : UserTree s r) (hr : Aligned r) : Parent 256 0 s r := by
  refine ⟨hr, ?_, ?_⟩
  · rw [framesAt_root]
    exact h.kept
  · intro p j hp hn
    obtain ⟨i, rfl⟩ := List.length_eq_one_iff.mp (show p.length = 1 by omega)
    exact h.no_giant i j (userPath_iff.mpr hp)

def smallEntry (m : Mem) (r v : BitVec 64) : Option (BitVec 64) :=
  let e := slot m r (pathOf v 3) (indexOf v 3)
  if has e PTE_PRESENT then some e else none

def hugeEntry (m : Mem) (r v : BitVec 64) : Option (BitVec 64) :=
  let e := slot m r (pathOf v 2) (indexOf v 2)
  if has e PTE_PRESENT && has e PTE_HUGE then some e else none

theorem EntryCopied.present {e e' : BitVec 64} (h : EntryCopied d e e') :
    has e' PTE_PRESENT = has e PTE_PRESENT := by
  cases h with
  | absent h => rw [h, zero_has]
  | huge => rfl
  | small f hp hd hf => exact has_of_flags (cloneEntry_flags hf e) (by decide)

theorem EntryCopied.is_huge {e e' : BitVec 64} (h : EntryCopied d e e')
    (hp : has e PTE_PRESENT = true) : has e' PTE_HUGE = has e PTE_HUGE := by
  cases h with
  | absent h =>
    rw [hp] at h
    cases h
  | huge => rfl
  | small f hp hd hf => exact has_of_flags (cloneEntry_flags hf e) (by decide)

variable {v e : BitVec 64}

theorem Cloned.slot_copied (h : Cloned s s' new) (hv : UserHalf v) {n : Nat} (hn : n ≤ 3) :
    EntryCopied n (slot s.mem (pte_addr s.cr3) (pathOf v n) (indexOf v n))
      (slot s'.mem new (pathOf v n) (indexOf v n)) := by
  have hcopied := h.copy.slots (pathOf v n) (indexOf v n) (userPath_iff.mp (pathOf_succ_user hv n))
    (by simpa using hn)
  rwa [pathOf_length, Nat.zero_add] at hcopied

theorem Cloned.small (h : Cloned s s' new) (hv : UserHalf v)
    (he : smallEntry s.mem (pte_addr s.cr3) v = some e) :
    ∃ e', smallEntry s'.mem new v = some e' ∧ pte_flags e' = pte_flags e ∧
      pageOf (pte_addr e') ∈ freePages s.pmm ∧ SameBytes s.mem s'.mem (pte_addr e) (pte_addr e') := by
  have hcopied := h.slot_copied hv (le_refl 3)
  have hpath : Path 256 (pathOf v 4) := userPath_iff.mp (pathOf_user hv 4)
  have hold := node_of_slot s.mem (pte_addr s.cr3) (pathOf v 3) (indexOf v 3)
  have hnew := node_of_slot s'.mem new (pathOf v 3) (indexOf v 3)
  unfold smallEntry at he ⊢
  dsimp only at he ⊢
  rw [hcopied.present]
  rw [← pathOf_succ, pathOf_length] at hold hnew
  generalize slot s.mem (pte_addr s.cr3) (pathOf v 3) (indexOf v 3) = e0 at *
  generalize slot s'.mem new (pathOf v 3) (indexOf v 3) = e1 at *
  split_ifs at he ⊢ with hp
  cases he
  cases hcopied with
  | absent habs =>
    rw [hp] at habs
    cases habs
  | huge hd => omega
  | small f _ hd hf =>
    rw [child_of_small hp (by omega)] at hold
    rw [child_cloneEntry hp (by omega) hf] at hnew
    obtain ⟨t', ht', hbytes⟩ := h.copy.pages _ _ hpath (by simp) hold
    have hff : t' = f := Option.some.inj (ht'.symm.trans hnew)
    refine ⟨_, rfl, cloneEntry_flags hf e, ?_, ?_⟩
    · rw [cloneEntry_addr hf]
      exact (h.copy.fresh _ f (by simp [pathOf]) hpath (by simp) hnew).1
    · rw [cloneEntry_addr hf, ← hff]
      exact hbytes

theorem Cloned.huge (h : Cloned s s' new) (hv : UserHalf v) :
    hugeEntry s'.mem new v = hugeEntry s.mem (pte_addr s.cr3) v := by
  have hcopied := h.slot_copied hv (show 2 ≤ 3 by omega)
  unfold hugeEntry
  dsimp only
  rw [hcopied.present]
  cases hp : has (slot s.mem (pte_addr s.cr3) (pathOf v 2) (indexOf v 2)) PTE_PRESENT with
  | false => simp
  | true =>
    rw [hcopied.is_huge hp, Bool.true_and]
    split_ifs with hh
    · generalize slot s.mem (pte_addr s.cr3) (pathOf v 2) (indexOf v 2) = e0 at *
      generalize slot s'.mem new (pathOf v 2) (indexOf v 2) = e1 at *
      cases hcopied with
      | absent habs =>
        rw [hp] at habs
        cases habs
      | huge => rfl
      | small f _ hd _ =>
        rw [hd (.inr rfl)] at hh
        cases hh
    · rfl

theorem Cloned.absent (h : Cloned s s' new) (hv : UserHalf v)
    (habs : translate s.mem (pte_addr s.cr3) v = none) : translate s'.mem new v = none := by
  by_contra hne
  rw [← Ne, translate_ne_none_iff] at hne
  refine absurd habs ((translate_ne_none_iff _ _ _).mpr ?_)
  have c0 := h.slot_copied hv (show 0 ≤ 3 by omega)
  have c1 := h.slot_copied hv (show 1 ≤ 3 by omega)
  have c2 := h.slot_copied hv (show 2 ≤ 3 by omega)
  have c3 := h.slot_copied hv (show 3 ≤ 3 by omega)
  rw [c0.present, c1.present, c2.present, c3.present] at hne
  obtain ⟨h0, h1, hrest⟩ := hne
  rw [c1.is_huge h1] at hrest
  refine ⟨h0, h1, ?_⟩
  rcases hrest with hh | ⟨h2, hrest⟩
  · exact .inl hh
  · rw [c2.is_huge h2] at hrest
    exact .inr ⟨h2, hrest⟩

/-! ## Enough pages -/

theorem clone_address_space_pool {n : Nat} (hpar : Parent 256 0 s (pte_addr s.cr3))
    (h : Pool (n + ((List.range' 0 256).map fun i =>
      needAt s.mem 0 (table_get s.mem (pte_addr s.cr3) i)).sum + 1) s) :
    ∃ new s', clone_address_space s = .ok (new, s') ∧ Pool n s' := by
  obtain ⟨f, s1, halloc, hpool⟩ := alloc_page_pool h
  have hf := alloc_page_new halloc
  obtain ⟨s2, hhalf⟩ := copy_kernel_half_ok (pte_addr s.cr3) f s1
  obtain ⟨hpmm, -⟩ := copy_kernel_half_spec (addr_aligned _) hf.aligned hhalf
  obtain ⟨s3, hclone, hend⟩ := clone_pml4_total hpar (hf.blank_root hhalf) (hpool.of_pmm hpmm)
  refine ⟨f, s3, ?_, hend⟩
  simp only [clone_address_space, bind_ok]
  refine ⟨(f, s1), halloc, ?_⟩
  dsimp only
  rw [hf.cr3]
  exact ⟨s2, hhalf, s3, hclone, rfl⟩

/-! ## The only way to fail -/

theorem clone_entry_error {inner : BitVec 64 → BitVec 64 → Mm → Except Halt Mm} {e : Halt}
    (he : e ≠ .out_of_pages) (hinner : ∀ old new s, inner old new s ≠ .error e) :
    clone_entry inner old new i s ≠ .error e := by
  unfold clone_entry
  simp only [Ne, bind_error, not_or, not_exists, not_and]
  exact ⟨fun h => he (alloc_page_error h).1, fun _ _ => hinner _ _ _⟩

theorem clone_pt_error {e : Halt} (he : e ≠ .out_of_pages) : clone_pt old new s ≠ .error e := by
  apply loop_error
  intro i s
  unfold clone_pt_entry
  split_ifs
  · exact fun h => by cases h
  · simp only [Ne, bind_error, not_or, not_exists, not_and]
    exact ⟨fun h => he (alloc_page_error h).1, fun _ _ h => by cases h⟩

theorem clone_pd_error {e : Halt} (he : e ≠ .out_of_pages) : clone_pd old new s ≠ .error e := by
  apply loop_error
  intro i s
  unfold clone_pd_entry
  split_ifs
  · exact fun h => by cases h
  · exact fun h => by cases h
  · exact clone_entry_error he (fun _ _ _ => clone_pt_error he)

theorem clone_pdpt_error {e : Halt} (he : e ≠ .out_of_pages) : clone_pdpt old new s ≠ .error e := by
  apply loop_error
  intro i s
  unfold clone_pdpt_entry
  split_ifs
  · exact fun h => by cases h
  · exact clone_entry_error he (fun _ _ _ => clone_pd_error he)

theorem clone_address_space_error {e : Halt} (h : clone_address_space s = .error e) :
    e = .out_of_pages := by
  by_contra he
  unfold clone_address_space at h
  simp only [bind_error] at h
  rcases h with h | ⟨_, -, h | ⟨_, -, h | ⟨_, -, h⟩⟩⟩
  · exact he (alloc_page_error h).1
  · exact absurd h (loop_error (fun _ _ h => by cases h))
  · refine absurd h (loop_error ?_)
    intro i s
    unfold clone_pml4_entry
    split_ifs
    · exact fun h => by cases h
    · exact clone_entry_error he (fun _ _ _ => clone_pdpt_error he)
  · cases h

/-! ## Any parent -/

/-- A clone has the pages of its parent with the same flags and bytes in frames of its own, and the
parent stays as it is. -/
theorem clone_correct (htree : UserTree s (pte_addr s.cr3))
    (hpages : clone_address_space s ≠ .error .out_of_pages) :
    ∃ new s', clone_address_space s = .ok (new, s') ∧
      (∀ v e, UserHalf v → smallEntry s.mem (pte_addr s.cr3) v = some e →
        ∃ e', smallEntry s'.mem new v = some e' ∧ pte_flags e' = pte_flags e ∧
          pageOf (pte_addr e') ∈ freePages s.pmm ∧
          SameBytes s.mem s'.mem (pte_addr e) (pte_addr e')) ∧
      (∀ v, UserHalf v → translate s.mem (pte_addr s.cr3) v = none → translate s'.mem new v = none) ∧
      (∀ v, UserHalf v → hugeEntry s'.mem new v = hugeEntry s.mem (pte_addr s.cr3) v) ∧
      (∀ i, 256 ≤ i → i < 512 → table_get s'.mem new i = table_get s.mem (pte_addr s.cr3) i) ∧
      (∀ p q t, UserPath p → UserPath q → p.length ≤ 4 → q.length ≤ 4 →
        node s'.mem new p = some t → node s'.mem new q = some t → p = q) ∧
      Disjoint (userFrames s'.mem new) (userFrames s.mem (pte_addr s.cr3)) ∧
      ∀ k ∉ freePages s.pmm, SamePage s.mem s'.mem k := by
  cases hclone : clone_address_space s with
  | error e =>
    rw [clone_address_space_error hclone] at hclone
    exact absurd hclone hpages
  | ok r =>
    obtain ⟨new, s'⟩ := r
    have h := clone_address_space_spec (htree.parent (addr_aligned _)) hclone
    refine ⟨new, s', rfl, fun v e hv => h.small hv, fun v hv => h.absent hv, fun v hv => h.huge hv,
      h.kernel, ?_, ?_, fun k hk => h.only.same k hk (Set.notMem_empty k)⟩
    · intro p q t hp hq hn hn' ht ht'
      exact h.copy.inj p q t (userPath_iff.mp hp) (userPath_iff.mp hq) (by omega) (by omega) ht ht'
    · rw [Set.disjoint_left]
      rintro k ⟨p, t, hp, hn, ht, rfl⟩ hk
      apply htree.kept _ hk
      by_cases hnil : p = []
      · subst hnil
        cases ht
        exact h.was_free
      · exact (h.copy.fresh p t hnil (userPath_iff.mp hp) (by omega) ht).1

/-! ## One parent -/

/-- Six pages of the kernel: an empty one, four tables and a page. The third table also has a 2 MiB
entry. -/
def smallParent : Mm :=
  let s := start ⟨Pmm.zero, fun _ => 0, 0x1000, none⟩ 64 0xFFFFFFFF80006000
  let s := table_set s 0x1000 0 0x2007
  let s := table_set s 0x2000 0 0x3007
  let s := table_set s 0x3000 2 0x4007
  let s := table_set s 0x3000 3 0x600087
  table_set s 0x4000 0 0x5007

theorem smallParent_get {t : BitVec 64} (ht : Aligned t) {i : Nat} (hi : i < 512) :
    table_get smallParent.mem t i =
      if t = 0x4000 ∧ i = 0 then 0x5007 else if t = 0x3000 ∧ i = 3 then 0x600087
      else if t = 0x3000 ∧ i = 2 then 0x4007 else if t = 0x2000 ∧ i = 0 then 0x3007
      else if t = 0x1000 ∧ i = 0 then 0x2007 else 0 := by
  have hset := fun (s : Mm) (t' : BitVec 64) (j : Nat) e (h : Aligned t') (hj : j < 512) =>
    table_get_set s e h ht hj hi
  unfold smallParent
  dsimp only
  rw [hset _ 0x4000 _ _ rfl (by omega), hset _ 0x3000 _ _ rfl (by omega),
    hset _ 0x3000 _ _ rfl (by omega), hset _ 0x2000 _ _ rfl (by omega),
    hset _ 0x1000 _ _ rfl (by omega)]
  congr
  exact read64_eq_zero (fun _ _ _ => rfl)

theorem smallParent_pml4 {i : Nat} (hi : i < 512) :
    table_get smallParent.mem 0x1000 i = if i = 0 then 0x2007 else 0 := by
  rw [smallParent_get (by unfold Aligned; rfl) hi]
  simp

theorem smallParent_pdpt {i : Nat} (hi : i < 512) :
    table_get smallParent.mem 0x2000 i = if i = 0 then 0x3007 else 0 := by
  rw [smallParent_get (by unfold Aligned; rfl) hi]
  simp

theorem smallParent_pd {i : Nat} (hi : i < 512) :
    table_get smallParent.mem 0x3000 i = if i = 3 then 0x600087 else if i = 2 then 0x4007 else 0 := by
  rw [smallParent_get (by unfold Aligned; rfl) hi]
  simp

theorem smallParent_pt {i : Nat} (hi : i < 512) :
    table_get smallParent.mem 0x4000 i = if i = 0 then 0x5007 else 0 := by
  rw [smallParent_get (by unfold Aligned; rfl) hi]
  simp

def smallFrame : Nat → BitVec 64
  | 0 => 0x1000
  | 1 => 0x2000
  | 2 => 0x3000
  | 3 => 0x4000
  | _ => 0x5000

theorem smallParent_child {d i : Nat} {t : BitVec 64} (hd : d < 4) (hi : i < 512)
    (h : child d (table_get smallParent.mem (smallFrame d) i) = some t) : t = smallFrame (d + 1) := by
  have hpresent := child_eq_some h
  obtain rfl | rfl | rfl | rfl : d = 0 ∨ d = 1 ∨ d = 2 ∨ d = 3 := by omega
  · rw [smallFrame, smallParent_pml4 hi] at h hpresent
    split_ifs at h hpresent
    · exact hpresent.1
    · exact absurd hpresent.2 (by decide)
  · rw [smallFrame, smallParent_pdpt hi] at h hpresent
    split_ifs at h hpresent
    · exact hpresent.1
    · exact absurd hpresent.2 (by decide)
  · rw [smallFrame, smallParent_pd hi] at h hpresent
    split_ifs at h hpresent
    · rw [child_huge rfl (by decide)] at h
      cases h
    · exact hpresent.1
    · exact absurd hpresent.2 (by decide)
  · rw [smallFrame, smallParent_pt hi] at h hpresent
    split_ifs at h hpresent
    · exact hpresent.1
    · exact absurd hpresent.2 (by decide)

theorem smallParent_node {b d : Nat} {p : List Nat} {t : BitVec 64} (hb : b ≤ 512) (hp : Path b p)
    (hn : d + p.length ≤ 4) (h : nodeAt smallParent.mem d (smallFrame d) p = some t) :
    t = smallFrame (d + p.length) := by
  induction p generalizing b d with
  | nil =>
    cases h
    rfl
  | cons i p ih =>
    rw [List.length_cons] at hn ⊢
    rw [nodeAt_cons, Option.bind_eq_some_iff] at h
    obtain ⟨t', hc, h⟩ := h
    obtain rfl := smallParent_child (by omega) (lt_of_lt_of_le hp.1 hb) hc
    rw [ih (le_refl 512) hp.2 (by omega) h, show d + 1 + p.length = d + (p.length + 1) by omega]

theorem smallParent_tree : UserTree smallParent (pte_addr smallParent.cr3) := by
  refine ⟨?_, ?_⟩
  · rw [← framesAt_root]
    rintro k ⟨p, t, hp, hn, ht, rfl⟩
    obtain rfl := smallParent_node (d := 0) (by omega) hp hn ht
    have hused : ∀ d ≤ 4, smallParent.pmm.page_used (pageOf (smallFrame d)) = true := by decide
    exact not_free_of_used (hused _ hn)
  · intro i j hp
    have hi : i < 512 := by have := hp.1; omega
    have hj : j < 512 := hp.2 j (by simp)
    have hslot : slot smallParent.mem (smallFrame 0) [i] j = 0x3007 ∨
        slot smallParent.mem (smallFrame 0) [i] j = 0 := by
      cases hc : child 0 (table_get smallParent.mem (smallFrame 0) i) with
      | none =>
        exact .inr (slot_of_none (by rw [← List.nil_append [i], node_snoc, node_nil]; exact hc) j)
      | some t =>
        obtain rfl := smallParent_child (by omega) hi hc
        have hnode : node smallParent.mem (smallFrame 0) [i] = some (smallFrame 1) := by
          rw [← List.nil_append [i], node_snoc, node_nil]
          exact hc
        rw [slot_of_node hnode, smallFrame, smallParent_pdpt hj]
        split_ifs
        · exact .inl rfl
        · exact .inr rfl
    rw [show pte_addr smallParent.cr3 = smallFrame 0 from rfl]
    rcases hslot with h | h <;> rw [h] <;> decide

theorem need_single {m : Mem} {t : BitVec 64} {b n d j : Nat} (hj : j < b)
    (h : ∀ i < b, i ≠ j → entryNeed (need m n) d (table_get m t i) = 0) :
    ((List.range' 0 b).map fun i => entryNeed (need m n) d (table_get m t i)).sum =
      entryNeed (need m n) d (table_get m t j) := by
  have hone : (List.range' 0 b).count j = 1 := List.count_eq_one_of_mem List.nodup_range' (by simp [hj])
  rw [List.sum_map_eq_nsmul_single j, hone, one_nsmul]
  intro i hne hi
  rw [List.mem_range'_1] at hi
  exact h i (by omega) hne

theorem entryNeed_of_present {below : BitVec 64 → Nat} {d : Nat} {e : BitVec 64}
    (hp : has e PTE_PRESENT = true) (hh : has e PTE_HUGE = false) :
    entryNeed below d e = 1 + below (pte_addr e) := by
  simp [entryNeed, hp, hh]

theorem entryNeed_zero (below : BitVec 64 → Nat) (d : Nat) : entryNeed below d 0 = 0 :=
  if_neg (by rw [zero_has]; simp)

theorem smallParent_need : ((List.range' 0 256).map fun i =>
    needAt smallParent.mem 0 (table_get smallParent.mem (pte_addr smallParent.cr3) i)).sum = 4 := by
  have h1 : need smallParent.mem 1 0x4000 = 1 := by
    rw [need, need_single (show 0 < 512 by omega), smallParent_pt (by omega), if_pos rfl,
      entryNeed_of_present (by decide) (by decide), need]
    intro i hi hne
    rw [smallParent_pt hi, if_neg hne, entryNeed_zero]
  have h2 : need smallParent.mem 2 0x3000 = 2 := by
    rw [need, need_single (show 2 < 512 by omega), smallParent_pd (by omega),
      if_neg (by omega), if_pos rfl,
      entryNeed_of_present (by decide) (by decide)]
    · rw [show pte_addr 0x4007 = 0x4000 by decide, h1]
    · intro i hi hne
      rw [smallParent_pd hi, if_neg hne]
      split_ifs
      · exact if_neg (by decide)
      · exact entryNeed_zero _ _
  have h3 : need smallParent.mem 3 0x2000 = 3 := by
    rw [need, need_single (show 0 < 512 by omega), smallParent_pdpt (by omega), if_pos rfl,
      entryNeed_of_present (by decide) (by decide)]
    · rw [show pte_addr 0x3007 = 0x3000 by decide, h2]
    · intro i hi hne
      rw [smallParent_pdpt hi, if_neg hne, entryNeed_zero]
  have hroot : ∀ e, needAt smallParent.mem 0 e = entryNeed (need smallParent.mem 3) 0 e := fun _ => rfl
  simp only [hroot]
  rw [show pte_addr smallParent.cr3 = 0x1000 from rfl, need_single (show 0 < 256 by omega),
    smallParent_pml4 (by omega), if_pos rfl, entryNeed_of_present (by decide) (by decide)]
  · rw [show pte_addr 0x2007 = 0x2000 by decide, h3]
  · intro i hi hne
    rw [smallParent_pml4 (by omega), if_neg hne, entryNeed_zero]

theorem smallParent_pool : Pool 10 smallParent :=
  Pool.of_pmm (s := start ⟨Pmm.zero, fun _ => 0, 0x1000, none⟩ 64 0xFFFFFFFF80006000)
    ⟨pmm_init_inv _ _ _ rfl (by decide), by decide⟩ rfl

theorem smallParent_pd_node : node smallParent.mem 0x1000 [0, 0] = some 0x3000 := by
  rw [show [0, 0] = ([] ++ [0]) ++ [0] from rfl, node_snoc, node_snoc, node_nil, Option.bind_some,
    smallParent_pml4 (by omega), if_pos rfl,
    show child ([] : List Nat).length 0x2007 = some 0x2000 by decide, Option.bind_some, smallParent_pdpt (by omega), if_pos rfl]
  decide

theorem smallParent_small :
    smallEntry smallParent.mem (pte_addr smallParent.cr3) 0x400000 = some 0x5007 := by
  have hpt : node smallParent.mem 0x1000 [0, 0, 2] = some 0x4000 := by
    rw [show [0, 0, 2] = [0, 0] ++ [2] from rfl, node_snoc, smallParent_pd_node, Option.bind_some,
      smallParent_pd (by omega), if_neg (by omega), if_pos rfl]
    decide
  rw [smallEntry, show pte_addr smallParent.cr3 = 0x1000 from rfl,
    show pathOf 0x400000 3 = [0, 0, 2] by decide, show indexOf 0x400000 3 = 0 by decide,
    slot_of_node hpt, smallParent_pt (by omega), if_pos rfl]
  decide

theorem smallParent_huge :
    hugeEntry smallParent.mem (pte_addr smallParent.cr3) 0x600000 = some 0x600087 := by
  rw [hugeEntry, show pte_addr smallParent.cr3 = 0x1000 from rfl,
    show pathOf 0x600000 2 = [0, 0] by decide, show indexOf 0x600000 2 = 3 by decide,
    slot_of_node smallParent_pd_node, smallParent_pd (by omega), if_pos rfl]
  decide

theorem clone_correct_small : ∃ new s' e', clone_address_space smallParent = .ok (new, s') ∧
    smallEntry s'.mem new 0x400000 = some e' ∧ pte_flags e' = 7 ∧
    hugeEntry s'.mem new 0x600000 = some 0x600087 := by
  have hpool := smallParent_pool
  obtain ⟨_, _, hok, -⟩ := clone_address_space_pool (n := 5) (smallParent_tree.parent (addr_aligned _))
    (by rw [smallParent_need]; exact hpool)
  have hpages : clone_address_space smallParent ≠ .error .out_of_pages := by
    rw [hok]
    simp
  obtain ⟨new, s', hclone, hsmall, -, hhuge, -⟩ := clone_correct smallParent_tree hpages
  obtain ⟨e', he', hflags, -⟩ := hsmall _ _ (by unfold UserHalf; decide) smallParent_small
  refine ⟨new, s', e', hclone, he', hflags, ?_⟩
  rw [hhuge _ (by unfold UserHalf; decide), smallParent_huge]

end Relis.Paging
