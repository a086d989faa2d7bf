import Relis.Code.Mprotect
import Relis.Lib.Sweep
import Relis.Paging.Refine
import Relis.Paging.Reach

/-!
# New flags for a range of pages

The loop of `sys_mprotect` starts at an address that need not be aligned. The walk ignores
the bits above the 48th and the bit for huge pages, so it may lead to the entry of another
page.
-/

open Relis.Bytes Relis.Run Relis.Code Relis.PageAlloc Relis.Sweep

namespace Relis.Paging

variable {clean : Prop} {s s' : Mm} {m m' : Mem} {R : Set (BitVec 64)}
  {r t e addr len new_flags v x : BitVec 64} {n : Nat}

/-! ## What it is for -/

def Overlaps (addr len v : BitVec 64) : Prop :=
  ∃ x, addr.toNat ≤ x ∧ x < addr.toNat + len.toNat ∧ x / 4096 = v.toNat / 4096

def wantedFlags (new_flags : BitVec 64) : BitVec 64 := pte_flags new_flags ||| PTE_PRESENT

/-- Every present page of the range gets the flags and keeps its frame. All other entries stay. -/
structure Protects (r addr len new_flags : BitVec 64) (m m' : Mem) : Prop where
  pages : ∀ v, Canonical v → Overlaps addr len v →
    has (slot m r (pathOf v 3) (indexOf v 3)) PTE_PRESENT = true →
    pte_flags (slot m' r (pathOf v 3) (indexOf v 3)) = wantedFlags new_flags ∧
    pte_addr (slot m' r (pathOf v 3) (indexOf v 3)) = pte_addr (slot m r (pathOf v 3) (indexOf v 3))
  others : ∀ v, Canonical v → ∀ n < 4, (n = 3 → ¬ Overlaps addr len v) →
    slot m' r (pathOf v n) (indexOf v n) = slot m r (pathOf v n) (indexOf v n)

/-- Tables with pages of 4 KiB and 2 MiB. The kernel has no others. -/
structure PageTable (m : Mem) (r : BitVec 64) : Prop where
  aligned : Aligned r
  small : ∀ v, has (slot m r (pathOf v 1) (indexOf v 1)) PTE_PRESENT = true →
    has (slot m r (pathOf v 1) (indexOf v 1)) PTE_HUGE = false

theorem Reached.pageTable (h : Reached clean s R) : PageTable s.mem (pte_addr s.cr3) := by
  obtain ⟨L, hL⟩ := h.held
  refine ⟨addr_aligned _, fun v hpres => ?_⟩
  have hroot := hL.root _ hL.current
  cases ht : node s.mem (pte_addr s.cr3) (pathOf v 1) with
  | none =>
    rw [slot_of_none ht, zero_has] at hpres
    cases hpres
  | some t =>
    rw [slot_of_node ht] at hpres ⊢
    have hkind := hL.node_kind (addr_aligned _) hroot (fun j hj => lt_of_mem_pathOf hj) (by simp) ht
    have hdepth : (Kind.ofPath (pathOf v 1)).depth = 1 := by rw [Kind.depth_ofPath, pathOf_length]
    have hentry :=
      hL.entry_ok (by omega) (node_aligned (addr_aligned _) ht) hkind (indexOf_lt v 1)
    exact hentry.small hdepth hpres

/-! ## The loop -/

def visited (addr len : BitVec 64) : List (BitVec 64) :=
  (List.range ((len.toNat + 4095) / 4096)).map fun i => addr + BitVec.ofNat 64 (PAGE_SIZE * i)

def Ends (addr len : BitVec 64) : Prop := addr.toNat + 4096 * ((len.toNat + 4095) / 4096) < 2 ^ 64

theorem toNat_add_pages (addr : BitVec 64) (i : Nat) :
    (addr + BitVec.ofNat 64 (PAGE_SIZE * i)).toNat = (addr.toNat + 4096 * i) % 2 ^ 64 := by
  unfold PAGE_SIZE
  rw [BitVec.toNat_add, BitVec.toNat_ofNat, Nat.add_mod_mod]

theorem add_pages_succ (addr : BitVec 64) (i : Nat) :
    addr + BitVec.ofNat 64 PAGE_SIZE + BitVec.ofNat 64 (PAGE_SIZE * i) =
      addr + BitVec.ofNat 64 (PAGE_SIZE * (i + 1)) := by
  rw [BitVec.add_assoc, ← BitVec.ofNat_add, Nat.mul_add_one, Nat.add_comm]

theorem mprotect_from_ends {stop : BitVec 64} {k fuel : Nat} (hfuel : k < fuel)
    (hlt : ∀ i < k, addr + BitVec.ofNat 64 (PAGE_SIZE * i) < stop)
    (hstop : ¬ addr + BitVec.ofNat 64 (PAGE_SIZE * k) < stop) :
    mprotect_from new_flags stop fuel addr s =
      some (((List.range k).map fun i => addr + BitVec.ofNat 64 (PAGE_SIZE * i)).foldl
        (mprotect_page new_flags) s) := by
  induction k generalizing fuel addr s with
  | zero =>
    obtain ⟨fuel, rfl⟩ := Nat.exists_eq_add_one_of_ne_zero (by omega : fuel ≠ 0)
    rw [mprotect_from, if_neg (by simpa using hstop)]
    rfl
  | succ k ih =>
    obtain ⟨fuel, rfl⟩ := Nat.exists_eq_add_one_of_ne_zero (by omega : fuel ≠ 0)
    rw [mprotect_from, if_pos (by simpa using hlt 0 (by omega))]
    have hnext : ∀ i < k, addr + BitVec.ofNat 64 PAGE_SIZE + BitVec.ofNat 64 (PAGE_SIZE * i) < stop := by
      intro i hi
      rw [add_pages_succ]
      exact hlt (i + 1) (by omega)
    rw [ih (by omega) hnext (by rw [add_pages_succ]; exact hstop), List.range_succ_eq_map,
      List.map_cons, List.foldl_cons, List.map_map]
    simp only [add_pages_succ, Function.comp_def, Nat.mul_zero, BitVec.add_zero]

theorem mprotect_from_endless {stop : BitVec 64} {fuel : Nat}
    (h : ∀ i, addr + BitVec.ofNat 64 (PAGE_SIZE * i) < stop) :
    mprotect_from new_flags stop fuel addr s = none := by
  induction fuel generalizing addr s with
  | zero => rfl
  | succ fuel ih =>
    rw [mprotect_from, if_pos (by simpa using h 0)]
    apply ih
    intro i
    rw [add_pages_succ]
    exact h (i + 1)

theorem mprotect_visits_eq {stop : BitVec 64} {k : Nat} (n : Nat)
    (hlt : ∀ i < k, addr + BitVec.ofNat 64 (PAGE_SIZE * i) < stop)
    (hstop : ¬ addr + BitVec.ofNat 64 (PAGE_SIZE * k) < stop) :
    mprotect_visits stop n addr = (List.range (min n k)).map fun i => addr + BitVec.ofNat 64
      (PAGE_SIZE * i) := by
  induction n generalizing addr k with
  | zero => simp [mprotect_visits]
  | succ n ih =>
    cases k with
    | zero =>
      rw [mprotect_visits, if_neg (by simpa using hstop)]
      simp
    | succ k =>
      have hnext : ∀ i < k,
          addr + BitVec.ofNat 64 PAGE_SIZE + BitVec.ofNat 64 (PAGE_SIZE * i) < stop := by
        intro i hi
        rw [add_pages_succ]
        exact hlt (i + 1) (by omega)
      rw [mprotect_visits, if_pos (by simpa using hlt 0 (by omega)),
        ih hnext (by rw [add_pages_succ]; exact hstop), Nat.add_min_add_right,
        List.range_succ_eq_map, List.map_cons, List.map_map]
      simp only [add_pages_succ, Function.comp_def, Nat.mul_zero, BitVec.add_zero]

theorem mprotect_from_visits {stop : BitVec 64} {fuel : Nat}
    (h : mprotect_from new_flags stop fuel addr s = some s') :
    s' = (mprotect_visits stop fuel addr).foldl (mprotect_page new_flags) s := by
  induction fuel generalizing addr s with
  | zero => cases h
  | succ fuel ih =>
    rw [mprotect_from] at h
    rw [mprotect_visits]
    split_ifs at h ⊢
    · exact ih h
    · exact (Option.some.inj h).symm

/-- The loop ends, and no page is asked for twice. -/
structure EndsOnce (s : Mm) (addr len new_flags : BitVec 64) : Prop where
  ends : ∃ fuel s', mprotect_from new_flags (addr + len) fuel addr s = some s'
  once : ∀ n, ((mprotect_visits (addr + len) n addr).map fun v => v.toNat / 4096).Nodup

def rounds (addr stop : BitVec 64) : Nat := (stop.toNat - addr.toNat + 4095) / 4096

section

variable {stop : BitVec 64} (hstop : stop.toNat ≤ 2 ^ 64 - 4096 + addr.toNat % 4096)

include hstop

theorem lt_stop_iff {i : Nat} (hi : i ≤ rounds addr stop) :
    addr + BitVec.ofNat 64 (PAGE_SIZE * i) < stop ↔ i < rounds addr stop := by
  have hlt := stop.isLt
  have haddr := addr.isLt
  unfold rounds at hi ⊢
  rw [BitVec.lt_def, toNat_add_pages]
  omega

theorem page_of_round {i : Nat} (hi : i < rounds addr stop) :
    (addr + BitVec.ofNat 64 (PAGE_SIZE * i)).toNat / 4096 = addr.toNat / 4096 + i := by
  have hlt := stop.isLt
  unfold rounds at hi
  rw [toNat_add_pages]
  omega

end

/-- The loop ends unless its bound lies in the last page, above the last value that `vaddr` can take. -/
theorem mprotect_once_iff (s : Mm) (addr len new_flags : BitVec 64) :
    EndsOnce s addr len new_flags ↔ (addr + len).toNat ≤ 2 ^ 64 - 4096 + addr.toNat % 4096 := by
  constructor
  · rintro ⟨⟨fuel, s', hends⟩, -⟩
    by_contra hover
    have hbelow : ∀ i, addr + BitVec.ofNat 64 (PAGE_SIZE * i) < addr + len := by
      intro i
      rw [BitVec.lt_def, toNat_add_pages]
      omega
    rw [mprotect_from_endless hbelow] at hends
    cases hends
  · intro hstop
    have hlt : ∀ i < rounds addr (addr + len), addr + BitVec.ofNat 64 (PAGE_SIZE * i) < addr + len :=
      fun i hi => (lt_stop_iff hstop hi.le).mpr hi
    have hge : ¬ addr + BitVec.ofNat 64 (PAGE_SIZE * rounds addr (addr + len)) < addr + len :=
      fun h => lt_irrefl _ ((lt_stop_iff hstop le_rfl).mp h)
    refine ⟨⟨_, _, mprotect_from_ends (Nat.lt_succ_self _) hlt hge⟩, fun n => ?_⟩
    rw [mprotect_visits_eq n hlt hge, List.map_map]
    refine List.Nodup.map_on (fun i hi j hj hij => ?_) List.nodup_range
    rw [List.mem_range] at hi hj
    rw [Function.comp_apply, Function.comp_apply, page_of_round hstop (by omega),
      page_of_round hstop (by omega)] at hij
    omega

/-- The last page, without its last byte: `vaddr` goes from the last page to address 0 and on. -/
theorem mprotect_last_page_endless :
    ¬ EndsOnce ⟨Pmm.zero, fun _ => 0, 0, none⟩ 0xFFFFFFFFFFFFF000 0xFFF 1 := by
  rintro ⟨⟨fuel, s', hends⟩, -⟩
  rw [mprotect_from_endless fun i => ?_] at hends
  · cases hends
  · rw [BitVec.lt_def, toNat_add_pages]
    have hstop : (0xFFFFFFFFFFFFF000 + 0xFFF : BitVec 64).toNat = 2 ^ 64 - 1 := by decide
    have haddr : (0xFFFFFFFFFFFFF000 : BitVec 64).toNat = 2 ^ 64 - 4096 := by decide
    omega

section

variable (hend : addr.toNat + len.toNat < 2 ^ 64)

include hend

theorem toNat_stop : (addr + len).toNat = addr.toNat + len.toNat := by
  rw [BitVec.toNat_add, Nat.mod_eq_of_lt hend]

theorem sys_mprotect_ends (h : Ends addr len) :
    sys_mprotect s addr len new_flags =
      some ((visited addr len).foldl (mprotect_page new_flags) s) := by
  unfold Ends at h
  have hlen := len.isLt
  refine mprotect_from_ends (by omega) (fun i hi => ?_) ?_
  · rw [BitVec.lt_def, toNat_add_pages, toNat_stop hend]
    omega
  · rw [BitVec.lt_def, toNat_add_pages, toNat_stop hend]
    omega

/-- The counter is always at the same place of its page, and the last such place is inside the range. -/
theorem sys_mprotect_endless (h : ¬ Ends addr len) : sys_mprotect s addr len new_flags = none := by
  unfold Ends at h
  refine mprotect_from_endless fun i => ?_
  rw [BitVec.lt_def, toNat_add_pages, toNat_stop hend]
  omega

end

theorem mem_visited (h : Ends addr len) :
    x ∈ visited addr len ↔ addr.toNat ≤ x.toNat ∧ x.toNat < addr.toNat + len.toNat ∧
      x.toNat % 4096 = addr.toNat % 4096 := by
  unfold Ends at h
  unfold visited
  rw [List.mem_map]
  constructor
  · rintro ⟨i, hi, rfl⟩
    rw [List.mem_range] at hi
    rw [toNat_add_pages]
    omega
  · rintro ⟨hlow, hhigh, hplace⟩
    refine ⟨(x.toNat - addr.toNat) / 4096, ?_, ?_⟩
    · rw [List.mem_range]
      omega
    · apply BitVec.eq_of_toNat_eq
      rw [toNat_add_pages]
      omega

/-! ## Entries as cells -/

def cell (t : BitVec 64) (i : Nat) : Nat := t.toNat / 8 + i

def word (m : Mem) (k : Nat) : BitVec 64 := read64 m (8 * k)

theorem cell_eq (ht : Aligned t) (i : Nat) : t.toNat + 8 * i = 8 * cell t i := by
  unfold Aligned at ht
  unfold cell
  omega

theorem table_get_cell (m : Mem) (ht : Aligned t) (i : Nat) :
    table_get m t i = word m (cell t i) := by
  unfold table_get word
  rw [cell_eq ht]

def reflag (new_flags e : BitVec 64) : BitVec 64 :=
  if has e PTE_PRESENT then pageEntry e (pte_flags new_flags) else e

theorem reflag_addr (new_flags e : BitVec 64) : pte_addr (reflag new_flags e) = pte_addr e := by
  unfold reflag
  split_ifs
  · exact pageEntry_addr e (flags_flags new_flags)
  · rfl

theorem reflag_flags (h : has e PTE_PRESENT = true) :
    pte_flags (reflag new_flags e) = wantedFlags new_flags := by
  rw [reflag, if_pos h, pageEntry, flags_or, flags_or, flags_addr, flags_flags]
  simp [wantedFlags, show pte_flags PTE_PRESENT = PTE_PRESENT by decide]

theorem reflag_present (new_flags e : BitVec 64) :
    has (reflag new_flags e) PTE_PRESENT = has e PTE_PRESENT := by
  unfold reflag
  split_ifs with h
  · rw [pageEntry_present, h]
  · rfl

def Stale (new_flags e : BitVec 64) : Prop :=
  has e PTE_PRESENT = true ∧ pte_flags e ≠ wantedFlags new_flags

theorem reflag_eq_self : reflag new_flags e = e ↔ ¬ Stale new_flags e := by
  unfold Stale
  constructor
  · rintro h ⟨hpres, hne⟩
    rw [← h, reflag_flags hpres] at hne
    exact hne rfl
  · intro h
    by_cases hpres : has e PTE_PRESENT = true
    · have hflags : pte_flags e = wantedFlags new_flags := by
        by_contra hne
        exact h ⟨hpres, hne⟩
      rw [← addr_or_flags (reflag new_flags e), reflag_addr, reflag_flags hpres, ← hflags, addr_or_flags]
    · rw [reflag, if_neg hpres]

theorem reflag_idem (new_flags e : BitVec 64) :
    reflag new_flags (reflag new_flags e) = reflag new_flags e := by
  rw [reflag_eq_self]
  rintro ⟨hpres, hne⟩
  rw [reflag_present] at hpres
  exact hne (reflag_flags hpres)

/-! ## The walk -/

theorem walk_page_table_middle (hpgd : s.current_pgd = some r) (hr : PageTable s.mem r)
    (v : BitVec 64) :
    walk_page_table s v = if has (middleEntry s.mem r v) PTE_PRESENT then
      some ((pte_addr (middleEntry s.mem r v)).toNat + 8 * indexOf v 3) else none := by
  have hsmall := hr.small v
  have h1 : node s.mem r (pathOf v 1) = child 0 (table_get s.mem r (pgd_index v)) :=
    node_of_slot s.mem r [] (indexOf v 0)
  have h2 : node s.mem r (pathOf v 2) = child 1 (slot s.mem r (pathOf v 1) (indexOf v 1)) := by
    rw [pathOf_succ, node_of_slot, pathOf_length]
  unfold walk_page_table middleEntry
  rw [hpgd]
  by_cases hpres1 : has (table_get s.mem r (pgd_index v)) PTE_PRESENT = true
  swap
  · rw [child_of_absent (by simpa using hpres1)] at h1
    rw [slot_of_none h1, child_of_absent (zero_has _)] at h2
    rw [slot_of_none h2, zero_has]
    simp [hpres1]
  rw [child_of_small hpres1 (by omega)] at h1
  rw [slot_of_node h1, show indexOf v 1 = pud_index v from rfl] at h2 hsmall
  by_cases hpres2 : has (table_get s.mem (pte_addr (table_get s.mem r (pgd_index v))) (pud_index v))
    PTE_PRESENT = true
  swap
  · rw [child_of_absent (by simpa using hpres2)] at h2
    rw [slot_of_none h2, zero_has]
    simp [hpres1, hpres2]
  rw [child_of_small hpres2 fun _ => hsmall hpres2] at h2
  rw [slot_of_node h2]
  by_cases hpres3 :
    has (table_get s.mem (pte_addr (table_get s.mem (pte_addr (table_get s.mem r (pgd_index v)))
      (pud_index v))) (pmd_index v)) PTE_PRESENT = true
  · simp [hpres1, hpres2, hpres3, indexOf]
  · simp [hpres1, hpres2, hpres3, indexOf]

/-! ## Entries that are to stay -/

theorem exists_canonical (v : BitVec 64) : ∃ w, Canonical w ∧ pageNumber w = pageNumber v := by
  have hlt := v.isLt
  refine ⟨BitVec.ofNat 64 (v.toNat % 2 ^ 48 + if v.toNat % 2 ^ 48 < 2 ^ 47 then 0 else 2 ^ 64 - 2 ^ 48), ?_, ?_⟩
  · unfold Canonical
    rw [BitVec.toNat_ofNat]
    split_ifs <;> omega
  · unfold pageNumber
    simp only [toNat_index _ _ 36 0xFFFFFFFFF (by decide), BitVec.toNat_ofNat]
    split_ifs <;> omega

theorem index_eq_of_page {v w : BitVec 64} (h : pageNumber v = pageNumber w) (hn : n < 4) :
    indexOf v n = indexOf w n := by
  have hpath := pathOf_eq_of_page h (n := n + 1) hn
  rw [pathOf_succ, pathOf_succ] at hpath
  exact (List.singleton_inj.mp (List.append_inj' hpath rfl).2)

/-- The entries of the upper levels, and those of the pages that do not overlap the range. -/
def kept (m : Mem) (r addr len : BitVec 64) : Set Nat :=
  {k | ∃ v n t, Canonical v ∧ n < 4 ∧ (n = 3 → ¬ Overlaps addr len v) ∧ node m r (pathOf v n) = some t ∧
    k = cell t (indexOf v n)}

theorem upper_mem_kept (hn : n < 3) (ht : node m r (pathOf v n) = some t) :
    cell t (indexOf v n) ∈ kept m r addr len := by
  obtain ⟨w, hw, hpage⟩ := exists_canonical v
  refine ⟨w, n, t, hw, by omega, by omega, ?_, ?_⟩
  · rw [pathOf_eq_of_page hpage (by omega), ht]
  · rw [index_eq_of_page hpage (by omega)]

section

variable (hr : Aligned r)

include hr

theorem slot_of_words (hnode : node m' r (pathOf v n) = node m r (pathOf v n))
    (hword : ∀ t, node m r (pathOf v n) = some t →
      word m' (cell t (indexOf v n)) = word m (cell t (indexOf v n))) :
    slot m' r (pathOf v n) (indexOf v n) = slot m r (pathOf v n) (indexOf v n) := by
  cases ht : node m r (pathOf v n) with
  | none => rw [slot_of_none ht, slot_of_none (hnode.trans ht)]
  | some t =>
    have haligned := node_aligned hr ht
    rw [slot_of_node ht, slot_of_node (hnode.trans ht), table_get_cell m' haligned,
      table_get_cell m haligned, hword t ht]

theorem node_of_kept (h : ∀ k ∈ kept m r addr len, word m' k = word m k) (v : BitVec 64)
    (hn : n ≤ 3) : node m' r (pathOf v n) = node m r (pathOf v n) := by
  induction n with
  | zero => rw [pathOf_zero, node_nil, node_nil]
  | succ n ih =>
    rw [pathOf_succ, node_of_slot, node_of_slot]
    rw [slot_of_words hr (ih (by omega)) fun t ht => h _ (upper_mem_kept (by omega) ht)]

theorem slot_of_kept (h : ∀ k ∈ kept m r addr len, word m' k = word m k) (hv : Canonical v)
    (hn : n < 4) (hout : n = 3 → ¬ Overlaps addr len v) :
    slot m' r (pathOf v n) (indexOf v n) = slot m r (pathOf v n) (indexOf v n) :=
  slot_of_words hr (node_of_kept hr h v (by omega)) fun t ht => h _ ⟨v, n, t, hv, hn, hout, ht, rfl⟩

omit hr in
theorem node_of_others (h : Protects r addr len new_flags m m') (v : BitVec 64) (hn : n ≤ 3) :
    node m' r (pathOf v n) = node m r (pathOf v n) := by
  cases n with
  | zero => rw [pathOf_zero, node_nil, node_nil]
  | succ n =>
    obtain ⟨w, hw, hpage⟩ := exists_canonical v
    rw [← pathOf_eq_of_page hpage (by omega), pathOf_succ, node_of_slot, node_of_slot,
      h.others w hw n (by omega) (by omega)]

theorem Protects.kept_same (h : Protects r addr len new_flags m m') :
    ∀ k ∈ kept m r addr len, word m' k = word m k := by
  rintro k ⟨v, n, t, hv, hn, hout, ht, rfl⟩
  have hsame := h.others v hv n hn hout
  rwa [slot_of_node ht, slot_of_node ((node_of_others h v (by omega)).trans ht),
    table_get_cell m' (node_aligned hr ht), table_get_cell m (node_aligned hr ht)] at hsame

end

/-! ## The loop as a sweep -/

def walkCell (s : Mm) (m : Mem) (v : BitVec 64) : Option Nat :=
  (walk_page_table { s with mem := m } v).map (· / 8)

def protectPage (new_flags : BitVec 64) (s : Mm) (m : Mem) (v : BitVec 64) : Mem :=
  (mprotect_page new_flags { s with mem := m } v).mem

theorem mprotect_page_mem (new_flags : BitVec 64) (s : Mm) (m : Mem) (v : BitVec 64) :
    mprotect_page new_flags { s with mem := m } v =
      { s with mem := protectPage new_flags s m v } := by
  unfold protectPage mprotect_page
  split
  · rfl
  · dsimp only
    split_ifs <;> rfl

theorem foldl_mprotect_page (new_flags : BitVec 64) (s : Mm) (vs : List (BitVec 64)) (m : Mem) :
    vs.foldl (mprotect_page new_flags) { s with mem := m } =
      { s with mem := vs.foldl (protectPage new_flags s) m } := by
  induction vs generalizing m with
  | nil => rfl
  | cons v vs ih => rw [List.foldl_cons, List.foldl_cons, mprotect_page_mem, ih]

theorem walk_page_table_word {a : Nat} (h : walk_page_table s v = some a) : a % 8 = 0 := by
  obtain ⟨t, haligned, rfl⟩ := walk_page_table_aligned h
  unfold Aligned at haligned
  omega

theorem protect_sweeps (new_flags : BitVec 64) (s : Mm) :
    Sweeps word (walkCell s) (reflag new_flags) (protectPage new_flags s) := by
  have hmask : ∀ e, e &&& ~~~PTE_FLAGS_MASK = pte_addr e := fun _ => rfl
  refine ⟨fun m v k h => ?_, fun m v k h => ?_, reflag_idem new_flags⟩
  · rw [walkCell, Option.map_eq_some_iff] at h
    obtain ⟨a, ha, rfl⟩ := h
    have hword := walk_page_table_word ha
    unfold protectPage mprotect_page word reflag pageEntry
    rw [ha, Nat.mul_div_cancel' (Nat.dvd_of_mod_eq_zero hword)]
    dsimp only
    split_ifs with hpres
    · rw [read64_write64_self, hmask]
      rfl
    · rfl
  · unfold walkCell at h
    unfold protectPage mprotect_page word
    cases ha : walk_page_table { s with mem := m } v with
    | none => rfl
    | some a =>
      have hword := walk_page_table_word ha
      rw [ha, Option.map_some, ne_eq, Option.some.injEq] at h
      dsimp only
      split_ifs with hpres
      · exact read64_write64_ne _ _ (by omega)
      · rfl

theorem walkCell_steers (hpgd : s.current_pgd = some r) (hr : PageTable s.mem r)
    (addr len : BitVec 64) : Steers word (walkCell s) s.mem (kept s.mem r addr len) := by
  intro m' h v
  have hslot : ∀ v, ∀ n < 3, slot m' r (pathOf v n) (indexOf v n) =
      slot s.mem r (pathOf v n) (indexOf v n) := by
    intro v n hn
    exact slot_of_words hr.aligned (node_of_kept hr.aligned h v (by omega)) fun t ht =>
      h _ (upper_mem_kept hn ht)
  have hr' : PageTable m' r := by
    refine ⟨hr.aligned, fun v => ?_⟩
    rw [hslot v 1 (by omega)]
    exact hr.small v
  unfold walkCell
  rw [walk_page_table_middle (s := { s with mem := m' }) hpgd hr', walk_page_table_middle hpgd hr]
  unfold middleEntry
  rw [hslot v 2 (by omega)]

/-! ## When it does what it is for -/

/-- The loop ends, gets to every page of the range whose flags are to change, and is led to no
entry of another page. -/
structure Covers (s : Mm) (r addr len new_flags : BitVec 64) : Prop where
  ends : Ends addr len
  reaches : ∀ v t, Canonical v → Overlaps addr len v → node s.mem r (pathOf v 3) = some t →
    Stale new_flags (table_get s.mem t (indexOf v 3)) →
    ∃ x ∈ visited addr len, walk_page_table s x = some (t.toNat + 8 * indexOf v 3)
  spares : ∀ x ∈ visited addr len, ∀ v n t, Canonical v → n < 4 → (n = 3 → ¬ Overlaps addr len v) →
    node s.mem r (pathOf v n) = some t → walk_page_table s x = some (t.toNat + 8 * indexOf v n) →
    ¬ Stale new_flags (table_get s.mem t (indexOf v n))

theorem walkCell_eq_some (ht : Aligned t) {i : Nat} :
    walkCell s s.mem x = some (cell t i) ↔ walk_page_table s x = some (t.toNat + 8 * i) := by
  rw [walkCell, Option.map_eq_some_iff, cell_eq ht]
  constructor
  · rintro ⟨a, ha, hdiv⟩
    rw [ha, ← hdiv, Nat.mul_div_cancel' (Nat.dvd_of_mod_eq_zero (walk_page_table_word ha))]
  · exact fun h => ⟨_, h, Nat.mul_div_cancel_left _ (by omega)⟩

theorem spares_iff (hr : Aligned r) :
    Spares word (walkCell s) (reflag new_flags) s.mem (kept s.mem r addr len)
      (visited addr len) ↔
    ∀ x ∈ visited addr len, ∀ v n t, Canonical v → n < 4 → (n = 3 → ¬ Overlaps addr len v) →
      node s.mem r (pathOf v n) = some t → walk_page_table s x = some (t.toNat + 8 * indexOf v n) →
      ¬ Stale new_flags (table_get s.mem t (indexOf v n)) := by
  constructor
  · intro h x hx v n t hv hn hout ht hwalk
    have haligned := node_aligned hr ht
    rw [table_get_cell s.mem haligned, ← reflag_eq_self]
    exact h x hx _ ⟨v, n, t, hv, hn, hout, ht, rfl⟩ ((walkCell_eq_some haligned).mpr hwalk)
  · rintro h x hx k ⟨v, n, t, hv, hn, hout, ht, rfl⟩ hwalk
    have haligned := node_aligned hr ht
    rw [reflag_eq_self, ← table_get_cell s.mem haligned]
    exact h x hx v n t hv hn hout ht ((walkCell_eq_some haligned).mp hwalk)

section

variable (hpgd : s.current_pgd = some r) (hr : PageTable s.mem r)

include hpgd hr

theorem Covers.protects (h : Covers s r addr len new_flags) :
    Protects r addr len new_flags s.mem
      ((visited addr len).foldl (protectPage new_flags s) s.mem) := by
  have hspares := (spares_iff hr.aligned).mpr h.spares
  have hswept := (protect_sweeps new_flags s).run (walkCell_steers hpgd hr addr len) hspares
  have hkept := fun k hk => hswept.same (a := k) hspares hk
  refine ⟨fun v hv hover hpres => ?_, fun v hv n hn hout => slot_of_kept hr.aligned hkept hv hn hout⟩
  cases ht : node s.mem r (pathOf v 3) with
  | none =>
    rw [slot_of_none ht, zero_has] at hpres
    cases hpres
  | some t =>
    have haligned := node_aligned hr.aligned ht
    have hnode := (node_of_kept hr.aligned hkept v (n := 3) (by omega)).trans ht
    rw [slot_of_node ht] at hpres
    rw [slot_of_node ht, slot_of_node hnode, table_get_cell _ haligned, table_get_cell _ haligned]
    -- An entry that the loop changes has the flags after it, and any other one had them before.
    have heq : word ((visited addr len).foldl (protectPage new_flags s) s.mem) (cell t (indexOf v 3)) =
        reflag new_flags (word s.mem (cell t (indexOf v 3))) := by
      by_cases hstale : Stale new_flags (table_get s.mem t (indexOf v 3))
      · obtain ⟨x, hx, hwalk⟩ := h.reaches v t hv hover ht hstale
        exact hswept.hit x hx _ ((walkCell_eq_some haligned).mpr hwalk)
      · rw [table_get_cell s.mem haligned, ← reflag_eq_self] at hstale
        rw [hstale, (protect_sweeps new_flags s).fixed hstale]
    rw [heq]
    exact ⟨reflag_flags (by rwa [table_get_cell s.mem haligned] at hpres), reflag_addr _ _⟩

theorem covers_of_protects (hends : Ends addr len)
    (h : Protects r addr len new_flags s.mem
      ((visited addr len).foldl (protectPage new_flags s) s.mem)) :
    Covers s r addr len new_flags := by
  have hsteers := walkCell_steers hpgd hr addr len
  have hspares : Spares word (walkCell s) (reflag new_flags) s.mem (kept s.mem r addr len)
      (visited addr len) := by
    by_contra hspoilt
    obtain ⟨k, hk, hne⟩ := (protect_sweeps new_flags s).spoils hsteers hspoilt
    exact hne (h.kept_same hr.aligned k hk)
  have hswept := (protect_sweeps new_flags s).run hsteers hspares
  refine ⟨hends, fun v t hv hover ht hstale => ?_, (spares_iff hr.aligned).mp hspares⟩
  by_contra hnone
  have haligned := node_aligned hr.aligned ht
  have hsame := hswept.miss (cell t (indexOf v 3)) fun x hx hwalk =>
    hnone ⟨x, hx, (walkCell_eq_some haligned).mp hwalk⟩
  have hflags := (h.pages v hv hover (by rw [slot_of_node ht]; exact hstale.1)).1
  rw [slot_of_node ((node_of_others h v (by omega)).trans ht), table_get_cell _ haligned, hsame,
    ← table_get_cell _ haligned] at hflags
  exact hstale.2 hflags

/-- `sys_mprotect` returns with the flags as they should be exactly for the ranges that its loop
covers. -/
theorem sys_mprotect_protects_iff (hend : addr.toNat + len.toNat < 2 ^ 64) :
    (∃ s', sys_mprotect s addr len new_flags = some s' ∧ Protects r addr len new_flags s.mem s'.mem) ↔
      Covers s r addr len new_flags := by
  have hfold := foldl_mprotect_page new_flags s (visited addr len) s.mem
  constructor
  · rintro ⟨s', hs', hprotects⟩
    have hends : Ends addr len := by
      by_contra hends
      rw [sys_mprotect_endless hend hends] at hs'
      cases hs'
    rw [sys_mprotect_ends hend hends, hfold, Option.some.injEq] at hs'
    subst hs'
    exact covers_of_protects hpgd hr hends hprotects
  · intro h
    exact ⟨_, by rw [sys_mprotect_ends hend h.ends, hfold], h.protects hpgd hr⟩

end

/-! ## Ranges of small pages -/

def Misses (addr len : BitVec 64) : Prop := 4096 ≤ addr.toNat % 4096 + (len.toNat - 1) % 4096

/-- Canonical addresses outside huge pages, in tables that form a tree. -/
structure SmallRange (m : Mem) (r addr len : BitVec 64) : Prop where
  tree : Radix.Unshared child (table_get m) (fun p => ∀ j ∈ p, j < 512) 3 {r}
  canonical : ∀ v, Overlaps addr len v → Canonical v
  small : ∀ v, Overlaps addr len v → ¬ HugeOn m r v

theorem canonical_page {v w : BitVec 64} (hv : Canonical v) (hw : Canonical w) :
    pageNumber v = pageNumber w ↔ v.toNat / 4096 = w.toNat / 4096 := by
  unfold Canonical at hv hw
  unfold pageNumber
  simp only [toNat_index _ _ 36 0xFFFFFFFFF (by decide)]
  have hv' := v.isLt
  have hw' := w.isLt
  omega

theorem overlaps_of_visited (hends : Ends addr len) (hx : x ∈ visited addr len) :
    Overlaps addr len x := by
  obtain ⟨hlow, hhigh, -⟩ := (mem_visited hends).mp hx
  exact ⟨x.toNat, hlow, hhigh, rfl⟩

theorem visited_or_last (hends : Ends addr len) (h : Overlaps addr len v) :
    (∃ x ∈ visited addr len, x.toNat / 4096 = v.toNat / 4096) ∨
      Misses addr len ∧ v.toNat / 4096 = (addr.toNat + (len.toNat - 1)) / 4096 := by
  obtain ⟨y, hlow, hhigh, hpage⟩ := h
  unfold Misses
  by_cases hin : v.toNat / 4096 * 4096 + addr.toNat % 4096 < addr.toNat + len.toNat
  · refine .inl ⟨BitVec.ofNat 64 (v.toNat / 4096 * 4096 + addr.toNat % 4096), ?_, ?_⟩
    · unfold Ends at hends
      rw [mem_visited hends, BitVec.toNat_ofNat]
      omega
    · rw [BitVec.toNat_ofNat]
      unfold Ends at hends
      omega
  · exact .inr (by omega)

section

variable (hpgd : s.current_pgd = some r) (hr : PageTable s.mem r) (hrange : SmallRange s.mem r addr len)

include hpgd hr hrange

theorem walk_small (hx : Overlaps addr len x) :
    walk_page_table s x = (node s.mem r (pathOf x 3)).map fun t => t.toNat + 8 * indexOf x 3 := by
  rw [walk_page_table_middle hpgd hr, pathOf_succ, node_of_slot, pathOf_length]
  change _ = (child 2 (middleEntry s.mem r x)).map _
  by_cases hpres : has (middleEntry s.mem r x) PTE_PRESENT = true
  · have hsmall : has (middleEntry s.mem r x) PTE_HUGE = false := by
      by_contra hhuge
      exact hrange.small x hx ⟨hpres, by simpa using hhuge⟩
    rw [if_pos hpres, child_of_small hpres fun _ => hsmall]
    rfl
  · rw [if_neg hpres, child_of_absent (by simpa using hpres)]
    rfl

/-- A visited address leads to no entry but that of its own page. -/
theorem walk_own (hx : Overlaps addr len x) (hv : Canonical v) (hn : n < 4)
    (ht : node s.mem r (pathOf v n) = some t)
    (hwalk : walk_page_table s x = some (t.toNat + 8 * indexOf v n)) :
    n = 3 ∧ x.toNat / 4096 = v.toNat / 4096 := by
  rw [walk_small hpgd hr hrange hx, Option.map_eq_some_iff] at hwalk
  obtain ⟨t', ht', heq⟩ := hwalk
  have haligned := node_aligned hr.aligned ht
  have haligned' := node_aligned hr.aligned ht'
  have hlt := indexOf_lt v n
  have hlt' := indexOf_lt x 3
  unfold Aligned at haligned haligned'
  obtain rfl : t' = t := BitVec.eq_of_toNat_eq (by omega)
  have hindex : indexOf x 3 = indexOf v n := by omega
  obtain ⟨-, hpath⟩ := hrange.tree r rfl r rfl _ _ t' (fun j hj => lt_of_mem_pathOf hj)
    (fun j hj => lt_of_mem_pathOf hj)
    (by simp) (by simp; omega) ht' ht
  obtain rfl : 3 = n := by simpa using congrArg List.length hpath
  exact ⟨rfl, (canonical_page (hrange.canonical x hx) hv).mp (leaf_eq_iff.mp ⟨hpath, hindex⟩)⟩

theorem covers_iff : Covers s r addr len new_flags ↔ Ends addr len ∧ (Misses addr len →
    ∀ v, v.toNat / 4096 = (addr.toNat + (len.toNat - 1)) / 4096 →
      ¬ Stale new_flags (slot s.mem r (pathOf v 3) (indexOf v 3))) := by
  constructor
  · intro h
    refine ⟨h.ends, fun hmisses v hlast hstale => ?_⟩
    unfold Misses at hmisses
    have hover : Overlaps addr len v := ⟨addr.toNat + (len.toNat - 1), by omega, by omega, hlast.symm⟩
    have hv := hrange.canonical v hover
    cases ht : node s.mem r (pathOf v 3) with
    | none =>
      have hpres := hstale.1
      rw [slot_of_none ht, zero_has] at hpres
      cases hpres
    | some t =>
      rw [slot_of_node ht] at hstale
      obtain ⟨x, hx, hwalk⟩ := h.reaches v t hv hover ht hstale
      obtain ⟨-, hpage⟩ := walk_own hpgd hr hrange (overlaps_of_visited h.ends hx) hv (by omega) ht hwalk
      have hmem := (mem_visited h.ends).mp hx
      omega
  · rintro ⟨hends, hlast⟩
    refine ⟨hends, fun v t hv hover ht hstale => ?_, fun x hx v n t hv hn hout ht hwalk _ => ?_⟩
    · rcases visited_or_last hends hover with ⟨x, hx, hpage⟩ | ⟨hmisses, hpage⟩
      · have hxover := overlaps_of_visited hends hx
        have hnumber := (canonical_page (hrange.canonical x hxover) hv).mpr hpage
        obtain ⟨hpath, hindex⟩ := leaf_eq_iff.mpr hnumber
        refine ⟨x, hx, ?_⟩
        rw [walk_small hpgd hr hrange hxover, hpath, hindex, ht]
        rfl
      · have hfresh := hlast hmisses v hpage
        rw [slot_of_node ht] at hfresh
        exact absurd hstale hfresh
    · have hxover := overlaps_of_visited hends hx
      obtain ⟨rfl, hpage⟩ := walk_own hpgd hr hrange hxover hv hn ht hwalk
      obtain ⟨y, hlow, hhigh, hy⟩ := hxover
      exact hout rfl ⟨y, hlow, hhigh, hy.trans hpage⟩

end

/-! ## A small space -/

def twoPages : Mm where
  pmm := .zero
  mem := write64 (write64 (write64 (write64 (write64 (fun _ => 0) 0x1000 0x2003) 0x2000 0x3003)
    0x3000 0x4003) 0x4008 0x5003) 0x4010 0x6003
  cr3 := 0x1000
  current_pgd := some 0x1000

def twoPagesTable (n : Nat) : BitVec 64 := BitVec.ofNat 64 (0x1000 * (n + 1))

theorem twoPages_first :
    ∀ n < 3, table_get twoPages.mem (twoPagesTable n) 0 = twoPagesTable (n + 1) ||| 3 := by
  decide +kernel

theorem twoPages_get {i : Nat} (hn : n < 3) (hi : i < 512) :
    table_get twoPages.mem (twoPagesTable n) i = if i =
      0 then twoPagesTable (n + 1) ||| 3 else 0 := by
  split_ifs with hzero
  · rw [hzero, twoPages_first n hn]
  · have hplace : (twoPagesTable n).toNat = 0x1000 * (n + 1) := by
      rw [twoPagesTable, BitVec.toNat_ofNat, Nat.mod_eq_of_lt (by omega)]
    unfold table_get twoPages
    rw [hplace, read64_write64_ne _ _ (by omega), read64_write64_ne _ _ (by omega),
      read64_write64_ne _ _ (by omega), read64_write64_ne _ _ (by omega),
      read64_write64_ne _ _ (by omega)]
    exact read64_eq_zero fun _ _ _ => rfl

theorem twoPages_addr : ∀ n < 3, pte_addr (twoPagesTable (n + 1) ||| 3) = twoPagesTable (n + 1) := by
  decide

theorem twoPages_node {p : List Nat} (hp : ∀ j ∈ p, j < 512) (hn : p.length ≤ 3)
    (ht : node twoPages.mem 0x1000 p = some t) :
    p = List.replicate p.length 0 ∧ t = twoPagesTable p.length := by
  induction p using List.reverseRecOn generalizing t with
  | nil =>
    cases ht
    exact ⟨rfl, rfl⟩
  | append_singleton p i ih =>
    rw [List.length_append, List.length_singleton] at hn
    rw [node_snoc, Option.bind_eq_some_iff] at ht
    obtain ⟨t', ht', hchild⟩ := ht
    obtain ⟨hpath, rfl⟩ := ih (fun j hj => hp j (by simp [hj])) (by omega) ht'
    rw [twoPages_get (by omega) (hp i (by simp))] at hchild
    split_ifs at hchild with hi
    · obtain ⟨rfl, -⟩ := child_eq_some hchild
      rw [twoPages_addr _ (by omega), List.length_append, List.length_singleton,
        List.replicate_succ', ← hpath, hi]
      exact ⟨rfl, rfl⟩
    · rw [child_of_absent (zero_has _)] at hchild
      cases hchild

theorem twoPages_huge (v : BitVec 64) (hn : n < 3) :
    has (slot twoPages.mem 0x1000 (pathOf v n) (indexOf v n)) PTE_HUGE = false := by
  cases ht : node twoPages.mem 0x1000 (pathOf v n) with
  | none => rw [slot_of_none ht, zero_has]
  | some t =>
    obtain ⟨-, rfl⟩ := twoPages_node (fun j hj => lt_of_mem_pathOf hj) (by simp; omega) ht
    rw [slot_of_node ht, pathOf_length, twoPages_get hn (indexOf_lt v n)]
    split_ifs
    · exact (by decide : ∀ n < 3, has (twoPagesTable (n + 1) ||| 3) PTE_HUGE = false) n hn
    · exact zero_has _

theorem twoPages_pageTable : PageTable twoPages.mem 0x1000 :=
  ⟨rfl, fun v _ => twoPages_huge v (by omega)⟩

theorem twoPages_range (h : addr.toNat + len.toNat ≤ 2 ^ 47) :
    SmallRange twoPages.mem 0x1000 addr len := by
  refine ⟨?_, ?_, ?_⟩
  · rintro r rfl r' rfl p q t hp hq hpn hqn htp htq
    obtain ⟨hp, hpt⟩ := twoPages_node hp hpn htp
    obtain ⟨hq, hqt⟩ := twoPages_node hq hqn htq
    have hlen : p.length = q.length :=
      (by decide : ∀ n ≤ 3, ∀ k ≤ 3, twoPagesTable n = twoPagesTable k → n = k) _ hpn _ hqn
        (hpt.symm.trans hqt)
    exact ⟨rfl, by rw [hp, hq, hlen]⟩
  · rintro v ⟨x, -, hx, hpage⟩
    exact .inl (by omega)
  · rintro v - ⟨-, hhuge⟩
    rw [middleEntry, twoPages_huge v (by omega)] at hhuge
    cases hhuge

/-- An aligned range of two pages. -/
theorem sys_mprotect_two_pages : PageTable twoPages.mem 0x1000 ∧
    ∃ s', sys_mprotect twoPages 0x1000 0x2000 PTE_USER = some s' ∧
      Protects 0x1000 0x1000 0x2000 PTE_USER twoPages.mem s'.mem := by
  refine ⟨twoPages_pageTable, (sys_mprotect_protects_iff rfl twoPages_pageTable (by decide)).mpr ?_⟩
  refine (covers_iff rfl twoPages_pageTable (twoPages_range (by decide))).mpr
    ⟨by unfold Ends; decide, fun hmisses => ?_⟩
  exact absurd hmisses (by unfold Misses; decide)

/-- A range of one page's length that starts in the middle of a page. The other page keeps its flags. -/
theorem sys_mprotect_misses_page : Overlaps 0x1800 0x1000 0x2000 ∧
    slot twoPages.mem 0x1000 (pathOf 0x2000 3) (indexOf 0x2000 3) = 0x6003 ∧
    (∃ s', sys_mprotect twoPages 0x1800 0x1000 PTE_USER = some s' ∧
      slot s'.mem 0x1000 (pathOf 0x2000 3) (indexOf 0x2000 3) = 0x6003) ∧
    ¬ ∃ s', sys_mprotect twoPages 0x1800 0x1000 PTE_USER = some s' ∧
      Protects 0x1000 0x1800 0x1000 PTE_USER twoPages.mem s'.mem := by
  have hover : Overlaps 0x1800 0x1000 0x2000 := ⟨0x2000, by decide, by decide, by decide⟩
  have hbefore : slot twoPages.mem 0x1000 (pathOf 0x2000 3) (indexOf 0x2000 3) = 0x6003 := by
    decide +kernel
  have hrun : sys_mprotect twoPages 0x1800 0x1000 PTE_USER =
      some ((visited 0x1800 0x1000).foldl (mprotect_page PTE_USER) twoPages) :=
    sys_mprotect_ends (by decide) (by unfold Ends; decide)
  have hafter : slot ((visited 0x1800 0x1000).foldl (mprotect_page PTE_USER) twoPages).mem 0x1000
    (pathOf 0x2000 3)
      (indexOf 0x2000 3) = 0x6003 := by decide +kernel
  refine ⟨hover, hbefore, ⟨_, hrun, hafter⟩, ?_⟩
  rintro ⟨s', hs', hprotects⟩
  rw [hrun, Option.some.injEq] at hs'
  subst hs'
  have hflags := (hprotects.pages 0x2000 (.inl (by decide)) hover (by rw [hbefore]; decide)).1
  rw [hafter] at hflags
  exact absurd hflags (by decide)

end Relis.Paging
