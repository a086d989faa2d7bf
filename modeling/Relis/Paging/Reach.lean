import Relis.Paging.Boot
import Relis.Paging.Kinds

/-!
# The address spaces of a run

All tables of all spaces keep their kinds, as long as no call takes the data of a huge page
for a table.
-/

open Relis.Bytes Relis.Run Relis.Code Relis.PageAlloc

namespace Relis.Paging

variable {clean : Prop} {s s' : Mm} {R : Set (BitVec 64)} {r virt : BitVec 64}

/-! ## Runs -/

/-- What the rest of the kernel does to memory: it writes to no table above the last level, and frees
no table. -/
structure LeavesTables (R : Set (BitVec 64)) (s s' : Mm) : Prop where
  used : ∀ r ∈ R, ∀ p t, (∀ j ∈ p, j < 512) → p.length ≤ 3 → node s.mem r p = some t →
    s'.pmm.page_used (pageOf t) = true
  entries : ∀ r ∈ R, ∀ p t, (∀ j ∈ p, j < 512) → p.length ≤ 2 → node s.mem r p = some t → ∀ i < 512,
    table_get s'.mem t i = table_get s.mem t i
  low : s'.pmm.page_used 0 = true
  cr3 : s'.cr3 = s.cr3
  current_pgd : s'.current_pgd = s.current_pgd

/-- The memory that a run gets to, with the spaces that were made. With `clean`, the user bit is only
given to pages of the user half. -/
inductive Reached (clean : Prop) : Mm → Set (BitVec 64) → Prop
  | boot {p4 kernel_end : BitVec 64} {m : Mem} (h : Layout p4 m kernel_end) :
      Reached clean { start_mm p4 m kernel_end with current_pgd := some p4 } {p4}
  | arch_map_page {s s' : Mm} {R : Set (BitVec 64)} {virt phys flags : BitVec 64} (h : Reached clean s R)
      (hclean : clean → UserHalf virt ∨ has flags PTE_USER = false)
        (hhigh : ¬ HighOn s.mem (pte_addr s.cr3) virt)
      (hmap : Code.arch_map_page s virt phys flags = .ok s') : Reached clean s' R
  | create_new_address_space {s s' : Mm} {R : Set (BitVec 64)} {r : BitVec 64} (h : Reached clean s R)
      (hnew : Code.create_new_address_space s = .ok (r, s')) : Reached clean s' (insert r R)
  | clone_address_space {s s' : Mm} {R : Set (BitVec 64)} {r : BitVec 64} (h : Reached clean s R)
      (hclone : Code.clone_address_space s = .ok (r, s')) : Reached clean s' (insert r R)
  | switch_address_space {s : Mm} {R : Set (BitVec 64)} {r : BitVec 64} (h : Reached clean s R)
    (hr : r ∈ R) :
      Reached clean (Code.switch_address_space s r) R
  | other {s s' : Mm} {R : Set (BitVec 64)} (h : Reached clean s R) (hother : LeavesTables R s s') :
    Reached clean s' R

/-! ## What holds on every run -/

structure Held (clean : Prop) (s : Mm) (R : Set (BitVec 64)) (L : Kinds) :
  Prop extends Kinded clean s L where
  addr : ∀ r ∈ R, pte_addr r = r
  root : ∀ r ∈ R, pageOf r ∈ L .root
  current : pte_addr s.cr3 ∈ R
  current_pgd : s.current_pgd = some (pte_addr s.cr3)

theorem Held.aligned {L : Kinds} (h : Held clean s R L) (hr : r ∈ R) : Aligned r :=
  h.addr r hr ▸ addr_aligned r

theorem Held.step {L L' : Kinds} (h : Held clean s R L) (hstep : KindStep clean s s' L L') :
    Held clean s' R L' := by
  refine ⟨hstep.kinded, h.addr, fun r hr => hstep.mono _ (h.root r hr), ?_, ?_⟩
  · rw [hstep.cr3]
    exact h.current
  · rw [hstep.current_pgd, hstep.cr3]
    exact h.current_pgd

theorem Held.insert {L : Kinds} (h : Held clean s R L) (hr : pte_addr r = r)
    (hroot : pageOf r ∈ L .root) : Held clean s (insert r R) L := by
  refine ⟨h.toKinded, ?_, ?_, .inr h.current, h.current_pgd⟩
  · rintro r' (rfl | hr')
    · exact hr
    · exact h.addr r' hr'
  · rintro r' (rfl | hr')
    · exact hroot
    · exact h.root r' hr'

def tablesOf (m : Mem) (R : Set (BitVec 64)) : Kinds := fun κ =>
  {k | ∃ r ∈ R, ∃ p t, (∀ j ∈ p, j < 512) ∧ p.length ≤ 3 ∧ node m r p = some t ∧ κ = .ofPath p ∧ k = pageOf t}

theorem Held.other {L : Kinds} (h : Held clean s R L) (hother : LeavesTables R s s') :
    Held clean s' R (tablesOf s.mem R) := by
  have hsub : ∀ κ, tablesOf s.mem R κ ⊆ L κ := by
    rintro κ k ⟨r, hr, p, t, hp, hn, ht, rfl, rfl⟩
    exact h.node_kind (h.aligned hr) (h.root r hr) hp hn ht
  refine ⟨⟨⟨?_, fun κ κ' k hk hk' => h.apart κ κ' k (hsub κ hk) (hsub κ' hk'), ?_⟩,
    fun κ hk => h.low κ (hsub κ hk), hother.low⟩, h.addr,
    fun r hr => ⟨r, hr, [], r, by simp, by simp, rfl, rfl, rfl⟩, ?_, ?_⟩
  · rintro κ k ⟨r, hr, p, t, hp, hn, ht, rfl, rfl⟩
    exact hother.used r hr p t hp hn ht
  · rintro κ (hκ : κ.depth < 3) t haligned ⟨r, hr, p, t', hp, hn, ht, rfl, hpage⟩ i hi
    obtain rfl := pageOf_inj haligned (node_aligned (h.aligned hr) ht) hpage
    have hentry := h.entry_ok hκ haligned (hsub _ ⟨r, hr, p, t, hp, hn, ht, rfl, rfl⟩) hi
    rw [Kind.depth_ofPath] at hκ
    rw [hother.entries r hr p t hp (by omega) ht i hi]
    refine ⟨fun t' ht' => ⟨r, hr, p ++ [i], t', ?_, ?_, ?_, (Kind.ofPath_snoc p i).symm, rfl⟩,
      hentry.small, hentry.clean⟩
    · intro j hj
      rcases List.mem_append.mp hj with hj | hj
      · exact hp j hj
      · rwa [List.mem_singleton.mp hj]
    · rw [List.length_append, List.length_singleton]
      omega
    · rw [node_snoc, ht, Option.bind_some, ← Kind.depth_ofPath]
      exact ht'
  · rw [hother.cr3]
    exact h.current
  · rw [hother.current_pgd, hother.cr3]
    exact h.current_pgd

/-! ## The boot tables -/

def bootKind : Nat → Kind
  | 0 => .root
  | 1 => .below false 1
  | 2 => .below false 2
  | 3 => .below true 1
  | 4 => .below true 2
  | 5 => .below true 1
  | _ => .below true 2

def bootKinds (p4 : BitVec 64) : Kinds :=
  fun κ => {k | ∃ n < 7, κ = bootKind n ∧ k = pageOf (boot_table p4 n)}

theorem bootLinks_kind : ∀ l ∈ bootLinks, bootKind l.2.2 = (bootKind l.1).next l.2.1 := by
  decide

theorem bootHuge_user : ∀ i < 512, has (bootHuge i) PTE_USER = false := by
  decide +kernel

theorem Layout.kinded {p4 kernel_end : BitVec 64} {m : Mem} (h : Layout p4 m kernel_end) :
    Kinded clean (start_mm p4 m kernel_end) (bootKinds p4) := by
  have hlow := h.low
  refine ⟨⟨?_, ?_, ?_⟩, ?_, ?_⟩
  · rintro κ k ⟨n, hn, -, rfl⟩
    exact h.used hn
  · rintro κ κ' k ⟨n, hn, rfl, rfl⟩ ⟨n', hn', rfl, hpage⟩
    have heq := pageOf_inj (h.table_aligned hn) (h.table_aligned hn') hpage
    rw [(h.table_inj hn hn').mp heq]
  · rintro κ hκ t haligned ⟨n, hn, rfl, hpage⟩ i hi
    obtain rfl := pageOf_inj haligned (h.table_aligned hn) hpage
    rw [start_mm_mem]
    rcases h.get_start hn hi with ⟨k, hk, hlink, he⟩ | ⟨hhuge, he⟩ | he
    · rw [he]
      refine ⟨fun t ht => ?_, fun _ _ => h.entry_small hk, fun _ _ => ?_⟩
      · refine ⟨k, hk, (bootLinks_kind _ hlink).symm, ?_⟩
        rw [(child_eq_some ht).1, h.addr_entry hk]
      · rw [has_or, ← h.addr_table hk, addr_has _ _ (by decide)]
        decide
    · rw [he]
      have hdepth : (bootKind n).depth = 2 := by
        rcases hhuge with ⟨rfl, -⟩ | rfl | rfl <;> rfl
      refine ⟨fun t ht => ?_, fun hd => by omega, fun _ _ => bootHuge_user i hi⟩
      rw [hdepth, child_bootHuge] at ht
      cases ht
    · rw [he]
      exact entryOk_zero
  · rintro κ ⟨n, hn, -, hzero⟩
    unfold pageOf at hzero
    rw [h.toNat_table hn] at hzero
    omega
  · have hinside := h.inside
    unfold start_mm
    rw [pmm_init_used, decide_eq_true_eq]
    omega

theorem Kinded.held {p4 : BitVec 64} {L : Kinds} (h : Kinded clean s L) (hp4 : pte_addr p4 = p4)
    (hroot : pageOf p4 ∈ L .root) (hcr3 : s.cr3 = p4) :
    Held clean { s with current_pgd := some p4 } {p4} L := by
  subst hcr3
  refine ⟨h.congr rfl rfl, ?_, ?_, hp4, congrArg some hp4.symm⟩
  · rintro r rfl
    exact hp4
  · rintro r rfl
    exact hroot

theorem Layout.held {p4 kernel_end : BitVec 64} {m : Mem} (h : Layout p4 m kernel_end) :
    Held clean { start_mm p4 m kernel_end with current_pgd := some p4 } {p4} (bootKinds p4) := by
  have hself := h.addr_table (n := 0) (by omega)
  rw [boot_table_zero] at hself
  have hroot : pageOf p4 ∈ bootKinds p4 .root :=
    ⟨0, by omega, rfl, congrArg pageOf (boot_table_zero p4).symm⟩
  exact h.kinded.held hself hroot (start_mm_cr3 p4 m kernel_end)

theorem Reached.held (h : Reached clean s R) : ∃ L, Held clean s R L := by
  induction h with
  | boot h => exact ⟨_, h.held⟩
  | arch_map_page h hclean hhigh hmap ih =>
    obtain ⟨L, hL⟩ := ih
    obtain ⟨L', hstep⟩ := arch_map_page_kind hL.toKinded hL.current_pgd (addr_aligned _)
      (hL.root _ hL.current) hclean hhigh hmap
    exact ⟨L', hL.step hstep⟩
  | create_new_address_space h hnew ih =>
    obtain ⟨L, hL⟩ := ih
    obtain ⟨L', hstep, haddr, hroot⟩ :=
      create_new_address_space_kind hL.toKinded (hL.root _ hL.current) hnew
    exact ⟨L', (hL.step hstep).insert haddr hroot⟩
  | clone_address_space h hclone ih =>
    obtain ⟨L, hL⟩ := ih
    obtain ⟨L', hstep, haddr, hroot⟩ :=
      clone_address_space_kind hL.toKinded (hL.root _ hL.current) hclone
    exact ⟨L', (hL.step hstep).insert haddr hroot⟩
  | @switch_address_space s R r h hr ih =>
    obtain ⟨L, hL⟩ := ih
    have hcurrent : pte_addr r ∈ R := (hL.addr r hr).symm ▸ hr
    exact ⟨L, hL.toKinded.congr rfl rfl, hL.addr, hL.root, hcurrent, rfl⟩
  | other h hother ih =>
    obtain ⟨L, hL⟩ := ih
    exact ⟨_, hL.other hother⟩

end Relis.Paging
