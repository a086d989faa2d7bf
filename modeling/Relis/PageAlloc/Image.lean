import Relis.Code.Image
import Relis.PageAlloc
import Mathlib.Data.List.Find

/-!
# The allocator whose statics lie in the frames it manages

As long as the frames of the statics stay used, the code does to them what
`Relis.Code.Pmm` says. A freed kernel page is given out again and cleared, with
the part of the bitmap that lies in it.
-/

open Relis.Bytes Relis.Run Relis.Code
open Relis.Code.Image (Statics)

namespace Relis.PageAlloc

variable {a : Statics} {m m' : Mem} {p : Pmm} {s : Mm} {i n : Nat} {t : Mm}

/-! ## What the bytes of the statics stand for -/

structure Holds (a : Statics) (m : Mem) (p : Pmm) : Prop where
  bitmap : ∀ w < 1024, read64 m (a.pmm_bitmap + 8 * w) = p.pmm_bitmap w
  total : (read32 m a.pmm_pages_total).toNat = p.pmm_pages_total
  free : (read32 m a.pmm_pages_free).toNat = p.pmm_pages_free
  hint : (read32 m a.next_free_page).toNat = p.next_free_page

def Static (a : Statics) (x : Nat) : Prop :=
  (a.pmm_bitmap ≤ x ∧ x < a.pmm_bitmap + 8192) ∨ (a.pmm_pages_total ≤ x ∧ x < a.pmm_pages_total + 4) ∨
    (a.pmm_pages_free ≤ x ∧ x < a.pmm_pages_free + 4) ∨ (a.next_free_page ≤ x ∧ x < a.next_free_page + 4)

/-- The frames hold the statics, and all their other bytes are those of the state. -/
structure Represents (a : Statics) (m : Mem) (s : Mm) : Prop where
  statics : Holds a m s.pmm
  frames : ∀ x, ¬ Static a x → m x = s.mem x

theorem Holds.congr (h : Holds a m p) (hm : ∀ x, Static a x → m' x = m x) : Holds a m' p := by
  refine ⟨?_, ?_, ?_, ?_⟩
  · intro w hw
    rw [read64_congr fun x h1 h2 => hm x (.inl ⟨by omega, by omega⟩), h.bitmap w hw]
  · rw [read32_congr fun i hi => hm _ (.inr (.inl ⟨by omega, by omega⟩)), h.total]
  · rw [read32_congr fun i hi => hm _ (.inr (.inr (.inl ⟨by omega, by omega⟩))), h.free]
  · rw [read32_congr fun i hi => hm _ (.inr (.inr (.inr ⟨by omega, by omega⟩))), h.hint]

theorem Holds.word (h : Holds a m p) (hi : i < 65536) :
    read64 m (a.word i) = p.pmm_bitmap (i / BITS_PER_WORD) :=
  h.bitmap _ (by unfold BITS_PER_WORD; omega)

theorem Holds.page_used (h : Holds a m p) (hi : i < 65536) :
    Image.page_used a m i = p.page_used i := by
  unfold Image.page_used Pmm.page_used
  rw [h.word hi]

theorem apart_pairs (a : Statics) :
    ((a.pmm_bitmap + 8192 ≤ a.pmm_pages_total ∨ a.pmm_pages_total + 4 ≤ a.pmm_bitmap) ∧
      (a.pmm_bitmap + 8192 ≤ a.pmm_pages_free ∨ a.pmm_pages_free + 4 ≤ a.pmm_bitmap) ∧
      (a.pmm_bitmap + 8192 ≤ a.next_free_page ∨ a.next_free_page + 4 ≤ a.pmm_bitmap)) ∧
    ((a.pmm_pages_total + 4 ≤ a.pmm_pages_free ∨ a.pmm_pages_free + 4 ≤ a.pmm_pages_total) ∧
      (a.pmm_pages_total + 4 ≤ a.next_free_page ∨ a.next_free_page + 4 ≤ a.pmm_pages_total)) ∧
    (a.pmm_pages_free + 4 ≤ a.next_free_page ∨ a.next_free_page + 4 ≤ a.pmm_pages_free) := by
  simpa using a.apart

/-! ## A store of one static changes that static only -/

theorem Holds.set_word (h : Holds a m p) {w : Nat} (hw : w < 1024) (v : BitVec 64) :
    Holds a (write64 m (a.pmm_bitmap + 8 * w) v)
      { p with pmm_bitmap := Function.update p.pmm_bitmap w v } := by
  obtain ⟨⟨ht, hf, hn⟩, -⟩ := apart_pairs a
  refine ⟨?_, ?_, ?_, ?_⟩
  · intro k hk
    dsimp only
    by_cases hkw : k = w
    · rw [hkw, read64_write64_self, Function.update_self]
    · rw [read64_write64_ne m v (by omega), Function.update_of_ne hkw, h.bitmap k hk]
  · rw [read32_write64_ne m v (by omega), h.total]
  · rw [read32_write64_ne m v (by omega), h.free]
  · rw [read32_write64_ne m v (by omega), h.hint]

theorem Holds.set_free (h : Holds a m p) (v : BitVec 32) :
    Holds a (write32 m a.pmm_pages_free v) { p with pmm_pages_free := v.toNat } := by
  obtain ⟨⟨-, hf, -⟩, ⟨htf, -⟩, hfn⟩ := apart_pairs a
  refine ⟨?_, ?_, ?_, ?_⟩
  · intro w hw
    rw [read64_write32_ne m v (by omega), h.bitmap w hw]
  · rw [read32_write32_ne m v (by omega), h.total]
  · rw [read32_write32_self]
  · rw [read32_write32_ne m v (by omega), h.hint]

theorem Holds.set_hint (h : Holds a m p) (v : BitVec 32) :
    Holds a (write32 m a.next_free_page v) { p with next_free_page := v.toNat } := by
  obtain ⟨⟨-, -, hn⟩, ⟨-, htn⟩, hfn⟩ := apart_pairs a
  refine ⟨?_, ?_, ?_, ?_⟩
  · intro w hw
    rw [read64_write32_ne m v (by omega), h.bitmap w hw]
  · rw [read32_write32_ne m v (by omega), h.total]
  · rw [read32_write32_ne m v (by omega), h.free]
  · rw [read32_write32_self]

/-! ## The functions -/

theorem Represents.store (h : Represents a m s) (hp : Holds a m' p)
    (hm : ∀ x, ¬ Static a x → m' x = m x) : Represents a m' { s with pmm := p } :=
  ⟨hp, fun x hx => (hm x hx).trans (h.frames x hx)⟩

theorem Represents.set_word (h : Represents a m s) (hi : i < 65536) (v : BitVec 64) :
    Represents a (write64 m (a.word i) v) { s with pmm := { s.pmm with
      pmm_bitmap := Function.update s.pmm.pmm_bitmap (i / BITS_PER_WORD) v } } := by
  have hw : i / BITS_PER_WORD < 1024 := by unfold BITS_PER_WORD; omega
  refine h.store (h.statics.set_word hw v) ?_
  intro x hx
  unfold Static at hx
  unfold Statics.word
  exact write64_apply_of_lt m v (by omega)

theorem Represents.set_bit (h : Represents a m s) (hi : i < 65536) :
    Represents a (Image.set_bit a m i) { s with pmm := s.pmm.set_bit i } := by
  unfold Image.set_bit
  rw [h.statics.word hi]
  exact h.set_word hi _

theorem Represents.clear_bit (h : Represents a m s) (hi : i < 65536) :
    Represents a (Image.clear_bit a m i) { s with pmm := s.pmm.clear_bit i } := by
  unfold Image.clear_bit
  rw [h.statics.word hi]
  exact h.set_word hi _

theorem Represents.set_free (h : Represents a m s) {v : BitVec 32} (hn : v.toNat = n) :
    Represents a (write32 m a.pmm_pages_free v)
      { s with pmm := { s.pmm with pmm_pages_free := n } } := by
  subst hn
  refine h.store (h.statics.set_free v) ?_
  intro x hx
  unfold Static at hx
  exact write32_apply_of_lt m v (by omega)

theorem Represents.set_hint (h : Represents a m s) {v : BitVec 32} (hn : v.toNat = n) :
    Represents a (write32 m a.next_free_page v)
      { s with pmm := { s.pmm with next_free_page := n } } := by
  subst hn
  refine h.store (h.statics.set_hint v) ?_
  intro x hx
  unfold Static at hx
  exact write32_apply_of_lt m v (by omega)

def Spares (a : Statics) (i : Nat) : Prop := ∀ x, Static a x → x / 4096 ≠ i

theorem Represents.clear_page (h : Represents a m s) (hi : Spares a i) {phys : Nat}
    (hphys : phys = 4096 * i) :
    Represents a (kmemset m phys 0 PAGE_SIZE) { s with mem := kmemset s.mem phys 0 PAGE_SIZE } := by
  refine ⟨h.statics.congr ?_, ?_⟩
  · intro x hx
    have := hi x hx
    rw [kmemset_apply, PAGE_SIZE, if_neg (by omega)]
  · intro x hx
    dsimp only
    rw [kmemset_apply, kmemset_apply, h.frames x hx]

theorem Holds.scan (h : Holds a m p) :
    (List.range' (read32 m a.next_free_page).toNat
        ((read32 m a.pmm_pages_total).toNat - (read32 m a.next_free_page).toNat)).find?
        (fun i => !Image.page_used a m i) =
      (List.range' p.next_free_page (p.pmm_pages_total - p.next_free_page)).find?
        (fun i => !p.page_used i) := by
  rw [h.total, h.hint]
  apply List.find?_congr
  intro i hi
  rw [List.mem_range'_1] at hi
  have htotal := p.total_le
  unfold MAX_PHYS_PAGES at htotal
  rw [h.page_used (by omega)]

theorem alloc_page_stores (h : Represents a m s) (hi : i < 65536)
    (hscan : (List.range' s.pmm.next_free_page (s.pmm.pmm_pages_total - s.pmm.next_free_page)).find?
      (fun i => !s.pmm.page_used i) = some i) :
    ∃ m', Image.alloc_page a m = .ok (BitVec.ofNat 64 i * BitVec.ofNat 64 PAGE_SIZE, kmemset m' (4096 * i) 0 PAGE_SIZE) ∧
      Represents a m' { s with pmm := { s.pmm.set_bit i with
        pmm_pages_free := u32 (s.pmm.pmm_pages_free + 4294967296 - 1)
        next_free_page := u32 (i + 1) } } := by
  have hbit := h.set_bit hi
  have hcount : (read32 (Image.set_bit a m i) a.pmm_pages_free - 1).toNat =
      u32 (s.pmm.pmm_pages_free + 4294967296 - 1) := by
    rw [BitVec.toNat_sub, hbit.statics.free, show (1 : BitVec 32).toNat = 1 from rfl]
    simp only [Pmm.set_bit, u32]
    omega
  refine ⟨_, ?_, (hbit.set_free hcount).set_hint (v := BitVec.ofNat 32 (i + 1)) rfl⟩
  unfold Image.alloc_page
  dsimp only
  rw [h.statics.scan, hscan, ← page_addr_toNat hi]

theorem alloc_page_refines (h : Represents a m s) (hkeep : ∀ i ∈ freePages s.pmm, Spares a i) :
    (∃ e, Image.alloc_page a m = .error e ∧ alloc_page s = .error e) ∨
      ∃ phys m' s', Image.alloc_page a m = .ok (phys, m') ∧ alloc_page s = .ok (phys, s') ∧
        Represents a m' s' := by
  cases hfind : (List.range' s.pmm.next_free_page (s.pmm.pmm_pages_total - s.pmm.next_free_page)).find?
      (fun i => !s.pmm.page_used i) with
  | none =>
    refine .inl ⟨.out_of_pages, ?_, ?_⟩
    · unfold Image.alloc_page
      dsimp only
      rw [h.statics.scan, hfind]
    · unfold alloc_page
      dsimp only
      rw [hfind]
  | some i =>
    have hmem := List.mem_of_find?_eq_some hfind
    have hfree : s.pmm.page_used i = false := by simpa using List.find?_some hfind
    rw [List.mem_range'_1] at hmem
    have htotal := s.pmm.total_le
    unfold MAX_PHYS_PAGES at htotal
    have hi : i < 65536 := by omega
    have hspared := hkeep i (mem_freePages.mpr ⟨by omega, hfree⟩)
    obtain ⟨m', hm', hstored⟩ := alloc_page_stores h hi hfind
    refine .inr ⟨_, _, _, hm', ?_, hstored.clear_page hspared rfl⟩
    unfold alloc_page
    dsimp only
    rw [hfind, ← page_addr_toNat hi]

theorem free_page_refines (h : Represents a m s) (phys : BitVec 64) :
    Represents a (Image.free_page a m phys) (free_page s phys) := by
  have htotal := s.pmm.total_le
  unfold MAX_PHYS_PAGES at htotal
  unfold Image.free_page free_page
  dsimp only
  generalize u32 (phys.toNat / PAGE_SIZE) = i
  rw [h.statics.total]
  by_cases hout : i ≥ s.pmm.pmm_pages_total
  · rw [if_pos hout, if_pos hout]
    exact h
  · have hlt : i < 65536 := by omega
    rw [if_neg hout, if_neg hout, h.statics.page_used hlt]
    by_cases hused : s.pmm.page_used i = true
    · rw [if_pos hused, if_pos hused]
      have hbit := h.clear_bit hlt
      have hcount : (read32 (Image.clear_bit a m i) a.pmm_pages_free + 1).toNat =
          u32 (s.pmm.pmm_pages_free + 1) := by
        rw [BitVec.toNat_add, hbit.statics.free, show (1 : BitVec 32).toNat = 1 from rfl]
        rfl
      have hfree := hbit.set_free hcount
      have hhint : (read32 (write32 (Image.clear_bit a m i) a.pmm_pages_free
          (read32 (Image.clear_bit a m i) a.pmm_pages_free + 1)) a.next_free_page).toNat =
          s.pmm.next_free_page := hfree.statics.hint
      rw [hhint]
      by_cases hlow : i < s.pmm.next_free_page
      · rw [if_pos hlow, if_pos hlow]
        exact hfree.set_hint ((BitVec.toNat_ofNat i 32).trans (Nat.mod_eq_of_lt (by omega)))
      · rw [if_neg hlow, if_neg hlow]
        exact hfree
    · rw [if_neg hused, if_neg hused]
      exact h

/-! ## `pmm_init` -/

theorem managed_le (total_kb : BitVec 32) :
    min (total_kb.toNat / 4) MAX_PHYS_PAGES ≤ MAX_PHYS_PAGES :=
  Nat.min_le_right _ _

/-- The statics once `pmm_init` has the size and has cleared the bitmap. -/
def cleared (m : Mem) (a : Statics) (total_kb : BitVec 32) : Pmm where
  pmm_bitmap := fun _ => 0
  pmm_pages_total := min (total_kb.toNat / 4) MAX_PHYS_PAGES
  pmm_pages_free := (read32 m a.pmm_pages_free).toNat
  next_free_page := (read32 m a.next_free_page).toNat
  total_le := managed_le total_kb

theorem total_toNat (total_kb : BitVec 32) :
    (if total_kb / 4 > BitVec.ofNat 32 MAX_PHYS_PAGES then BitVec.ofNat 32 MAX_PHYS_PAGES
      else total_kb / 4).toNat = min (total_kb.toNat / 4) MAX_PHYS_PAGES := by
  have hdiv : (total_kb / 4).toNat = total_kb.toNat / 4 := by simp
  unfold MAX_PHYS_PAGES
  split_ifs with h
  all_goals
    rw [gt_iff_lt, BitVec.lt_def, hdiv] at h
    simp at h ⊢
    omega

theorem cleared_represented (a : Statics) (m : Mem) (total_kb : BitVec 32) (cr3 : BitVec 64)
    (current_pgd : Option (BitVec 64)) :
    Represents a (kmemset (write32 m a.pmm_pages_total
      (if total_kb / 4 > BitVec.ofNat 32 MAX_PHYS_PAGES then BitVec.ofNat 32 MAX_PHYS_PAGES else
        total_kb / 4))
      a.pmm_bitmap 0 8192) ⟨cleared m a total_kb, m, cr3, current_pgd⟩ := by
  obtain ⟨⟨ht, hf, hn⟩, ⟨htf, htn⟩, -⟩ := apart_pairs a
  generalize htotal :
    (if total_kb / 4 > BitVec.ofNat 32 MAX_PHYS_PAGES then BitVec.ofNat 32 MAX_PHYS_PAGES else
    total_kb / 4) = total
  have hcleared : ∀ b, (b + 4 ≤ a.pmm_bitmap ∨ a.pmm_bitmap + 8192 ≤ b) →
      read32 (kmemset (write32 m a.pmm_pages_total total) a.pmm_bitmap 0 8192) b =
        read32 (write32 m a.pmm_pages_total total) b := by
    intro b hb
    apply read32_congr
    intro i hi
    rw [kmemset_apply, if_neg (by omega)]
  refine ⟨⟨?_, ?_, ?_, ?_⟩, ?_⟩
  · intro w hw
    apply read64_eq_zero
    intro x h1 h2
    rw [kmemset_apply, if_pos (by omega)]
  · rw [hcleared _ (by omega), read32_write32_self, ← htotal]
    exact total_toNat total_kb
  · rw [hcleared _ (by omega), read32_write32_ne m total (by omega)]
    rfl
  · rw [hcleared _ (by omega), read32_write32_ne m total (by omega)]
    rfl
  · intro x hx
    unfold Static at hx
    rw [kmemset_apply, if_neg (by omega), write32_apply_of_lt m total (by omega)]

theorem mark_kernel_represented (h : Represents a m s) (hn : n ≤ 65536) :
    Represents a ((List.range n).foldl (Image.set_bit a) m)
      { s with pmm := mark_kernel s.pmm n } := by
  induction n with
  | zero => exact h
  | succ n ih =>
    rw [mark_kernel, List.range_succ, List.foldl_append, List.foldl_append]
    exact (ih (by omega)).set_bit (by omega)

theorem pmm_init_refines (a : Statics) (m : Mem) (total_kb : BitVec 32) (kernel_end : BitVec 64)
    (hkernel : kernel_pages kernel_end ≤ 65536) (cr3 : BitVec 64) (current_pgd : Option (BitVec 64)) :
    Represents a (Image.pmm_init a m total_kb kernel_end)
      (pmm_init ⟨cleared m a total_kb, m, cr3, current_pgd⟩ total_kb kernel_end) := by
  have hmarked := mark_kernel_represented (cleared_represented a m total_kb cr3 current_pgd) hkernel
  have htotal := hmarked.statics.total.trans (mark_kernel_total _ _)
  unfold Image.pmm_init
  dsimp only
  generalize (List.range (kernel_pages kernel_end)).foldl (Image.set_bit a) _ = m' at hmarked htotal ⊢
  have hcount : (read32 m' a.pmm_pages_total - BitVec.ofNat 32 (kernel_pages kernel_end)).toNat =
      u32 (min (total_kb.toNat / 4) MAX_PHYS_PAGES + 4294967296 - kernel_pages kernel_end) := by
    dsimp only [cleared] at htotal
    rw [BitVec.toNat_sub, htotal, BitVec.toNat_ofNat, u32]
    generalize min (total_kb.toNat / 4) MAX_PHYS_PAGES = total
    omega
  have hfree := hmarked.set_free hcount
  refine ⟨⟨hfree.statics.bitmap, ?_, hfree.statics.free, hfree.statics.hint⟩, hfree.frames⟩
  obtain ⟨-, ⟨htf, -⟩, -⟩ := apart_pairs a
  rw [read32_write32_ne _ _ (by omega)]
  exact htotal

/-! ## Any run -/

/-- `held` are the pages in use: those of the kernel, and those that `alloc_page` gave
out. A page leaves it when it is freed. -/
structure Machine where
  mem : Mem
  held : Finset Nat

def Machine.step (a : Statics) (s : Machine) : Op → Except Halt Machine
  | .alloc_page => do
    let (phys, mem) ← Image.alloc_page a s.mem
    return ⟨mem, insert (phys.toNat / 4096) s.held⟩
  | .free_page phys =>
    return ⟨Image.free_page a s.mem phys, s.held.erase (u32 (phys.toNat / PAGE_SIZE))⟩

def boot (a : Statics) (m : Mem) (total_kb : BitVec 32) (kernel_end : BitVec 64) : Machine :=
  ⟨Image.pmm_init a m total_kb kernel_end, Finset.range (kernel_pages kernel_end)⟩

def clearBits (a : Statics) (m : Mem) : Finset Nat :=
  (Finset.range (read32 m a.pmm_pages_total).toNat).filter fun i => Image.page_used a m i = false

/-- The counter, the hint and the bitmap are views of one set, and a call of
`alloc_page` gives its lowest page or stops when it is empty. -/
structure Agrees (a : Statics) (s : Machine) : Prop where
  count : (read32 s.mem a.pmm_pages_free).toNat = (clearBits a s.mem).card
  below_hint : ∀ i < (read32 s.mem a.next_free_page).toNat, Image.page_used a s.mem i = true
  lowest : (Image.alloc_page a s.mem).map (·.1.toNat) =
    fullScan (read32 s.mem a.pmm_pages_total).toNat (Image.page_used a s.mem)
  not_held : ∀ phys m', Image.alloc_page a s.mem = .ok (phys, m') →
    ∃ i < (read32 s.mem a.pmm_pages_total).toNat, phys.toNat = 4096 * i ∧ i ∉ s.held
  halts : Image.alloc_page a s.mem = .error .out_of_pages ↔ read32 s.mem a.pmm_pages_free = 0

def Op.Leaves (n : Nat) : Op → Prop
  | .alloc_page => True
  | .free_page phys => n ≤ u32 (phys.toNat / PAGE_SIZE)

structure Kept (a : Statics) (n : Nat) (s : Machine) (t : Mm) : Prop where
  represents : Represents a s.mem t
  inv : Inv t.pmm
  held : ∀ i < t.pmm.pmm_pages_total, t.pmm.page_used i = true ↔ i ∈ s.held
  kernel : ∀ i < n, i ∈ s.held
  managed : n ≤ t.pmm.pmm_pages_total

theorem Kept.free_above {s : Machine} (h : Kept a n s t) (hi : i ∈ freePages t.pmm) : n ≤ i := by
  rw [mem_freePages] at hi
  by_contra hlt
  have hused := (h.held i hi.1).mpr (h.kernel i (by omega))
  rw [hi.2] at hused
  cases hused

theorem Kept.spares (hlinked : ∀ x, Static a x → x / 4096 < n) {s : Machine}
    (h : Kept a n s t) : ∀ i ∈ freePages t.pmm, Spares a i := by
  intro i hi x hx hxi
  have hin := hlinked x hx
  have habove := h.free_above hi
  omega

theorem step_refines (hlinked : ∀ x, Static a x → x / 4096 < n) {s : Machine} (op : Op)
    (h : Kept a n s t) (hop : op.Leaves n) :
    (∃ e, s.step a op = .error e ∧ step t op = .error e) ∨
      ∃ s' t', s.step a op = .ok s' ∧ step t op = .ok t' ∧ Kept a n s' t' := by
  cases op with
  | alloc_page =>
    obtain ⟨e, hs, ht⟩ | ⟨phys, mem, t', hs, ht, hrep⟩ :=
      alloc_page_refines h.represents (h.spares hlinked)
    · refine .inl ⟨e, ?_, ?_⟩
      · rw [Machine.step, hs]
        rfl
      · rw [step, ht]
        rfl
    · obtain ⟨i, hphys, hgot⟩ := alloc_page_cases ht
      have hpage : phys.toNat / 4096 = i := by omega
      refine .inr ⟨⟨mem, insert i s.held⟩, t', ?_, ?_, hrep, alloc_page_inv h.inv ht, ?_, ?_, ?_⟩
      · rw [Machine.step, hs, ← hpage]
        rfl
      · rw [step, ht]
        rfl
      · intro j hj
        rw [hgot.total] at hj
        rw [hgot.used, Finset.mem_insert, ← h.held j hj]
        simp
      · intro j hj
        exact Finset.mem_insert_of_mem (h.kernel j hj)
      · rw [hgot.total]
        exact h.managed
  | free_page phys =>
    refine .inr ⟨_, _, rfl, rfl, free_page_refines h.represents phys,
      free_page_inv phys h.inv, ?_, ?_, ?_⟩
    · intro j hj
      rw [free_page_total] at hj
      rw [free_page_bits t phys hj, Finset.mem_erase, ← h.held j hj]
      simp
    · intro j hj
      have hleft : n ≤ u32 (phys.toNat / PAGE_SIZE) := hop
      exact Finset.mem_erase.mpr ⟨by omega, h.kernel j hj⟩
    · rw [free_page_total]
      exact h.managed

theorem boot_kept (a : Statics) (m : Mem) (total_kb : BitVec 32) (kernel_end : BitVec 64)
    (hstatic : read32 m a.next_free_page = 0)
    (hkernel : kernel_pages kernel_end ≤ min (total_kb.toNat / 4) MAX_PHYS_PAGES) :
    Kept a (kernel_pages kernel_end) (boot a m total_kb kernel_end)
      (pmm_init ⟨cleared m a total_kb, m, 0, none⟩ total_kb kernel_end) := by
  have hmax : kernel_pages kernel_end ≤ 65536 := hkernel.trans (Nat.min_le_right _ _)
  refine ⟨pmm_init_refines a m total_kb kernel_end hmax 0 none, ?_, ?_, ?_, hkernel⟩
  · apply pmm_init_inv
    · show (read32 m a.next_free_page).toNat = 0
      rw [hstatic]
      rfl
    · exact hkernel
  · intro i _
    rw [pmm_init_used, boot, Finset.mem_range, decide_eq_true_iff]
  · intro i hi
    exact Finset.mem_range.mpr hi

theorem alloc_page_same {s : Machine} (h : Represents a s.mem t)
    (hkeep : ∀ i ∈ freePages t.pmm, Spares a i) :
    (Image.alloc_page a s.mem).map (·.1.toNat) = (alloc_page t).map (·.1.toNat) := by
  obtain ⟨e, hs, ht⟩ | ⟨phys, mem, t', hs, ht, -⟩ := alloc_page_refines h hkeep
  · rw [hs, ht]
    rfl
  · rw [hs, ht]
    rfl

theorem Kept.agrees (hlinked : ∀ x, Static a x → x / 4096 < n) {s : Machine}
    (h : Kept a n s t) : Agrees a s := by
  have htotal := t.pmm.total_le
  unfold MAX_PHYS_PAGES at htotal
  have hstatics := h.represents.statics
  have hused : ∀ i < t.pmm.pmm_pages_total, Image.page_used a s.mem i = t.pmm.page_used i :=
    fun i hi => hstatics.page_used (by omega)
  have hrefines := alloc_page_refines h.represents (h.spares hlinked)
  refine ⟨?_, ?_, ?_, ?_, ?_⟩
  · rw [hstatics.free, h.inv.count]
    congr 1
    ext i
    rw [mem_freePages, clearBits, Finset.mem_filter, Finset.mem_range, hstatics.total]
    refine and_congr_right fun hi => ?_
    rw [hused i hi]
  · intro i hi
    rw [hstatics.hint] at hi
    rw [hused i (hi.trans_le h.inv.hint_le)]
    exact h.inv.below_hint i hi
  · have hscan : fullScan (read32 s.mem a.pmm_pages_total).toNat (Image.page_used a s.mem) =
        fullScan t.pmm.pmm_pages_total t.pmm.page_used := by
      unfold fullScan
      rw [hstatics.total, List.find?_congr fun i hi => by rw [hused i (List.mem_range.mp hi)]]
    rw [alloc_page_same h.represents (h.spares hlinked), alloc_page_fullScan h.inv, hscan]
  · intro phys m' halloc
    obtain ⟨e, hs, -⟩ | ⟨phys', mem, t', hs, ht, -⟩ := hrefines
    · rw [hs] at halloc
      cases halloc
    · rw [hs] at halloc
      cases halloc
      obtain ⟨i, hphys, hgot⟩ := alloc_page_cases ht
      refine ⟨i, by rw [hstatics.total]; exact hgot.lt, hphys, ?_⟩
      rw [← h.held i hgot.lt, hgot.was_free]
      exact Bool.false_ne_true
  · have hzero : read32 s.mem a.pmm_pages_free = 0 ↔ t.pmm.pmm_pages_free = 0 := by
      rw [← hstatics.free, ← BitVec.toNat_inj]
      rfl
    rw [hzero, ← alloc_page_halts_iff h.inv]
    obtain ⟨e, hs, ht⟩ | ⟨phys', mem, t', hs, ht, -⟩ := hrefines
    · rw [hs, ht]
      simp
    · rw [hs, ht]
      simp

theorem run_kept {m : Mem} {total_kb : BitVec 32} {kernel_end : BitVec 64} {ops : List Op}
    (hstatic : read32 m a.next_free_page = 0)
    (hlinked : ∀ x, Static a x → x / 4096 < kernel_pages kernel_end)
    (hkernel : kernel_pages kernel_end ≤ min (total_kb.toNat / 4) MAX_PHYS_PAGES)
    (hleft : ∀ op ∈ ops, op.Leaves (kernel_pages kernel_end)) :
    (∃ e, run (Machine.step a) (boot a m total_kb kernel_end) ops = .error e ∧
      run step (pmm_init ⟨cleared m a total_kb, m, 0, none⟩ total_kb kernel_end) ops = .error e) ∨
    ∃ s t, run (Machine.step a) (boot a m total_kb kernel_end) ops = .ok s ∧
      run step (pmm_init ⟨cleared m a total_kb, m, 0, none⟩ total_kb kernel_end) ops = .ok t ∧
      Kept a (kernel_pages kernel_end) s t :=
  run_related (Kept a (kernel_pages kernel_end))
    (fun op hop _ _ h => step_refines hlinked op h (hleft op hop))
    (boot_kept a m total_kb kernel_end hstatic hkernel)

/-- As long as no page of the kernel is freed, the three views agree in every state
that calls lead to. -/
theorem run_agrees (a : Statics) (m : Mem) (total_kb : BitVec 32) (kernel_end : BitVec 64)
    (ops : List Op) (s : Machine) (hstatic : read32 m a.next_free_page = 0)
    (hlinked : ∀ x, Static a x → x / 4096 < kernel_pages kernel_end)
    (hkernel : kernel_pages kernel_end ≤ min (total_kb.toNat / 4) MAX_PHYS_PAGES)
    (hleft : ∀ op ∈ ops, op.Leaves (kernel_pages kernel_end))
    (hrun : run (Machine.step a) (boot a m total_kb kernel_end) ops = .ok s) : Agrees a s := by
  obtain ⟨e, hs, -⟩ | ⟨s', t, hs, -, hkept⟩ := run_kept hstatic hlinked hkernel hleft
  · rw [hs] at hrun
    cases hrun
  · rw [hs] at hrun
    cases hrun
    exact hkept.agrees hlinked

/-- An image from 1 MiB on, whose last three pages hold the statics. -/
def linked : Statics := ⟨0x101000, 0x103000, 0x103004, 0x103008, by decide⟩

theorem linked_in_kernel : ∀ x, Static linked x → x / 4096 < kernel_pages 0xFFFFFFFF80104000 := by
  intro x hx
  have hpages : kernel_pages 0xFFFFFFFF80104000 = 260 := by decide
  simp only [Static, linked] at hx
  omega

/-- Two pages are given out, the first is freed twice and given out again, and a free
names a page that is not managed. -/
def smallRun : List Op :=
  [.alloc_page, .alloc_page, .free_page 0x104000, .free_page 0x104000,
    .free_page 0x10000000, .alloc_page]

/-- Of 268 pages, 260 are of the kernel and two stay allocated. -/
theorem run_agrees_small :
    ∃ s, run (Machine.step linked) (boot linked (fun _ => 0) 1072 0xFFFFFFFF80104000) smallRun =
      .ok s ∧
      (read32 s.mem linked.pmm_pages_free).toNat = 6 ∧ (clearBits linked s.mem).card = 6 := by
  have hstatic : read32 (fun _ => 0) linked.next_free_page = 0 := by decide
  have hkernel : kernel_pages 0xFFFFFFFF80104000 ≤
      min ((1072 : BitVec 32).toNat / 4) MAX_PHYS_PAGES := by decide
  have hleft : ∀ op ∈ smallRun, op.Leaves (kernel_pages 0xFFFFFFFF80104000) := by
    simp only [smallRun, List.mem_cons, List.not_mem_nil, or_false, forall_eq_or_imp,
      forall_eq, Op.Leaves]
    decide
  have hok : (run step (pmm_init ⟨cleared (fun _ => 0) linked 1072, fun _ => 0, 0, none⟩
      1072 0xFFFFFFFF80104000) smallRun).toOption.any (fun t => t.pmm.pmm_pages_free == 6) = true := by
    decide +kernel
  obtain ⟨t, ht, hsix⟩ := exists_of_any hok
  obtain ⟨e, -, herror⟩ | ⟨s, t', hs, ht', hkept⟩ := run_kept hstatic linked_in_kernel hkernel hleft
  · rw [ht] at herror
    cases herror
  · rw [ht] at ht'
    cases ht'
    have hfree : (read32 s.mem linked.pmm_pages_free).toNat = 6 :=
      hkept.represents.statics.free.trans (beq_iff_eq.mp hsix)
    have hagrees := run_agrees linked _ 1072 _ smallRun s hstatic linked_in_kernel hkernel hleft hs
    exact ⟨s, hs, hfree, hagrees.count ▸ hfree⟩

theorem page_used_of_cleared (hi : i < 32768) :
    Image.page_used linked (kmemset m (4096 * 257) 0 PAGE_SIZE) i = false := by
  have hword : read64 (kmemset m (4096 * 257) 0 PAGE_SIZE) (linked.word i) = 0 := by
    apply read64_eq_zero
    intro x h1 h2
    simp only [Statics.word, linked, BITS_PER_WORD] at h1 h2
    rw [kmemset_apply, PAGE_SIZE, if_pos (by omega)]
  rw [Image.page_used, hword]
  simp

theorem read32_of_cleared {x : Nat} (hx : 0x102000 ≤ x) :
    read32 (kmemset m (4096 * 257) 0 PAGE_SIZE) x = read32 m x := by
  apply read32_congr
  intro i hi
  rw [kmemset_apply, PAGE_SIZE, if_neg (by omega)]

/-- The first page of the bitmap is freed and given out again. All 268 pages are free
then, with 8 in the counter, and the next call gives the bitmap's second page. -/
theorem bitmap_page_given_out :
    ∃ s, run (Machine.step linked) (boot linked (fun _ => 0) 1072 0xFFFFFFFF80104000)
        [.free_page 0x101000, .alloc_page] = .ok s ∧
      (read32 s.mem linked.pmm_pages_free).toNat = 8 ∧ (clearBits linked s.mem).card = 268 ∧
      (read32 s.mem linked.next_free_page).toNat = 258 ∧ Image.page_used linked s.mem 0 = false ∧
      258 ∈ s.held ∧ ∃ m', Image.alloc_page linked s.mem = .ok (0x102000, m') := by
  have hkept := boot_kept linked (fun _ => 0) 1072 0xFFFFFFFF80104000 (by decide) (by decide)
  have hfreed := free_page_refines hkept.represents 0x101000
  obtain ⟨m', hgiven, hstored⟩ := alloc_page_stores hfreed (i := 257) (by decide) (by decide +kernel)
  have htotal : (read32 m' linked.pmm_pages_total).toNat = 268 :=
    hstored.statics.total.trans (by decide +kernel)
  have hfree : (read32 m' linked.pmm_pages_free).toNat = 8 :=
    hstored.statics.free.trans (by decide +kernel)
  have hhint : (read32 m' linked.next_free_page).toNat = 258 := hstored.statics.hint
  have hunused : ∀ i < 268, Image.page_used linked (kmemset m' (4096 * 257) 0 PAGE_SIZE) i = false :=
    fun i hi => page_used_of_cleared (by omega)
  rw [← read32_of_cleared (by decide)] at htotal hfree hhint
  generalize kmemset m' (4096 * 257) 0 PAGE_SIZE = m2 at *
  have hclear : clearBits linked m2 = Finset.range 268 := by
    rw [clearBits, htotal, Finset.filter_true_of_mem]
    intro i hi
    exact hunused i (Finset.mem_range.mp hi)
  refine ⟨⟨m2, insert 257 ((Finset.range 260).erase 257)⟩, ?_, hfree, ?_, hhint,
    hunused 0 (by decide), ?_, ?_⟩
  · have hheld : u32 ((0x101000 : BitVec 64).toNat / PAGE_SIZE) = 257 := by decide
    have hpages : kernel_pages 0xFFFFFFFF80104000 = 260 := by decide
    rw [run_cons, Machine.step, pure_bind, hheld, run_cons, Machine.step, hgiven, boot, hpages]
    rfl
  · rw [hclear, Finset.card_range]
  · simp
  · have hscan : (List.range' 258 (268 - 258)).find? (fun i => !Image.page_used linked m2 i) =
        some 258 := by
      rw [List.find?_range'_eq_some]
      simp [hunused]
      omega
    unfold Image.alloc_page
    dsimp only
    rw [htotal, hhint, hscan]
    exact ⟨_, rfl⟩

end Relis.PageAlloc
