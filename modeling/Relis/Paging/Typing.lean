import Relis.Paging.Space

/-!
# Frames with types

The type of a table says what its entries may be, and of which type the frame is that an
entry leads to. Every call that makes tables keeps the types.
-/

open Relis.Bytes Relis.Run Relis.Code Relis.PageAlloc

namespace Relis.Paging

/-- The types of tables. `Ok L κ i e` says that `e` may stand at `i` in a table of type `κ`,
if the frames have the types of `L`, and `Allows κ i u` that the flag `u` may be added there. -/
structure Typing (ι : Type) where
  root : ι
  depth : ι → Nat
  next : ι → Nat → ι
  Covers : ι → Nat → Prop
  Ok : (ι → Set Nat) → ι → Nat → BitVec 64 → Prop
  Allows : ι → Nat → BitVec 64 → Prop
  depth_root : depth root = 0
  depth_next : ∀ κ i, depth (next κ i) = depth κ + 1
  covers_lt : ∀ {κ i}, Covers κ i → i < 512
  covers_user : ∀ {κ i}, i < 512 → (depth κ = 0 → i < 256) → Covers κ i
  ok_zero : ∀ {L κ i}, Ok L κ i 0
  ok_mono : ∀ {L L' κ i e}, (∀ κ, L κ ⊆ L' κ) → Ok L κ i e → Ok L' κ i e
  ok_table : ∀ {L κ i f u}, pte_addr f = f → pageOf f ∈ L (next κ i) → UserFlag u →
    Allows κ i u → Ok L κ i (tableEntry f u)
  ok_user : ∀ {L κ i e u}, Ok L κ i e → UserFlag u → Allows κ i u → Ok L κ i (e ||| u)
  ok_clone : ∀ {L κ i e f}, Ok L κ i e → pte_addr f = f → pageOf f ∈ L (next κ i) →
    Ok L κ i (cloneEntry f e)
  leads : ∀ {L κ i e}, Ok L κ i e → has e PTE_PRESENT = true →
    (depth κ = 2 → has e PTE_HUGE = false) → pageOf (pte_addr e) ∈ L (next κ i)

variable {ι : Type} {T : Typing ι} {s s' s1 : Mm} {L L' L1 : ι → Set Nat} {κ : ι}
  {t f : BitVec 64} {i : Nat}

structure Typed (T : Typing ι) (s : Mm) (L : ι → Set Nat) : Prop where
  used : ∀ κ, ∀ k ∈ L κ, s.pmm.page_used k = true
  apart : ∀ κ κ' k, k ∈ L κ → k ∈ L κ' → κ = κ'
  entry : ∀ κ, T.depth κ < 3 → ∀ t, Aligned t → pageOf t ∈ L κ → ∀ i, T.Covers κ i →
    T.Ok L κ i (table_get s.mem t i)

theorem Typed.not_free (h : Typed T s L) {k : Nat} (hk : k ∈ L κ) : k ∉ freePages s.pmm :=
  not_free_of_used (h.used κ k hk)

theorem Typed.of_entries (h : Typed T s L) (hused : ∀ κ, ∀ k ∈ L κ, s'.pmm.page_used k = true)
    (hsame : ∀ κ, T.depth κ < 3 → ∀ t, Aligned t → pageOf t ∈ L κ → ∀ i, T.Covers κ i →
      table_get s'.mem t i = table_get s.mem t i) : Typed T s' L := by
  refine ⟨hused, h.apart, ?_⟩
  intro κ hκ t ht hmem i hi
  rw [hsame κ hκ t ht hmem i hi]
  exact h.entry κ hκ t ht hmem i hi

theorem Typed.congr (h : Typed T s L) (hmem : s'.mem = s.mem) (hpmm : s'.pmm = s.pmm) :
    Typed T s' L := by
  refine h.of_entries ?_ ?_
  · rw [hpmm]
    exact h.used
  · intro κ _ t _ _ i _
    rw [hmem]

/-- A step that makes new tables from free frames, and writes only to them and to the entries
of the tables that have types. -/
structure TypedStep (T : Typing ι) (s s' : Mm) (L L' : ι → Set Nat) : Prop where
  typed : Typed T s' L'
  mono : ∀ κ, L κ ⊆ L' κ
  fresh : ∀ κ, ∀ k ∈ L' κ, k ∈ L κ ∨ k ∈ freePages s.pmm
  free : freePages s'.pmm ⊆ freePages s.pmm
  used : ∀ k, s.pmm.page_used k = true → s'.pmm.page_used k = true
  same : ∀ k ∉ freePages s.pmm, (∀ κ, k ∉ L κ) → SamePage s.mem s'.mem k
  upper : ∀ t, Aligned t → pageOf t ∈ L T.root → ∀ i < 512, ¬ T.Covers T.root i →
    table_get s'.mem t i = table_get s.mem t i
  total : s'.pmm.pmm_pages_total = s.pmm.pmm_pages_total
  cr3 : s'.cr3 = s.cr3
  current_pgd : s'.current_pgd = s.current_pgd

theorem TypedStep.refl (h : Typed T s L) : TypedStep T s s L L :=
  ⟨h, fun _ _ hk => hk, fun _ _ hk => .inl hk, Finset.Subset.refl _, fun _ hk => hk,
    fun _ _ _ _ _ => rfl, fun _ _ _ _ _ _ => rfl, rfl, rfl, rfl⟩

theorem TypedStep.trans (h1 : TypedStep T s s1 L L1) (h2 : TypedStep T s1 s' L1 L') :
    TypedStep T s s' L L' := by
  refine ⟨h2.typed, fun κ k hk => h2.mono κ (h1.mono κ hk), ?_, h2.free.trans h1.free,
    fun k hk => h2.used k (h1.used k hk), ?_, ?_, h2.total.trans h1.total, h2.cr3.trans h1.cr3,
    h2.current_pgd.trans h1.current_pgd⟩
  · intro κ k hk
    rcases h2.fresh κ k hk with hk | hk
    · exact h1.fresh κ k hk
    · exact .inr (h1.free hk)
  · intro k hfree hk x hx
    have hk1 : ∀ κ, k ∉ L1 κ := fun κ hmem => (h1.fresh κ k hmem).elim (hk κ) hfree
    rw [h2.same k (fun h => hfree (h1.free h)) hk1 x hx, h1.same k hfree hk x hx]
  · intro t ht hmem i hi hnot
    rw [h2.upper t ht (h1.mono _ hmem) i hi hnot, h1.upper t ht hmem i hi hnot]

/-! ## New frames -/

def addFrame (L : ι → Set Nat) (κ : ι) (k : Nat) : ι → Set Nat :=
  fun κ' => {x | x ∈ L κ' ∨ κ' = κ ∧ x = k}

/-- What any step does that gives out one frame and writes to no frame that is in use. -/
structure Fills (s s' : Mm) (f : BitVec 64) : Prop where
  was_free : pageOf f ∈ freePages s.pmm
  used : ∀ k, s'.pmm.page_used k = (decide (k = pageOf f) || s.pmm.page_used k)
  free : freePages s'.pmm ⊆ freePages s.pmm
  same : ∀ k ∉ freePages s.pmm, SamePage s.mem s'.mem k
  total : s'.pmm.pmm_pages_total = s.pmm.pmm_pages_total
  cr3 : s'.cr3 = s.cr3
  current_pgd : s'.current_pgd = s.current_pgd

theorem alloc_page_fills (h : alloc_page s = .ok (f, s')) : Fills s s' f := by
  have hnew := alloc_page_new h
  obtain ⟨i, -, ha⟩ := alloc_page_cases h
  exact ⟨hnew.was_free, hnew.used, hnew.only.free, fun k hk => hnew.same k (hnew.ne_of_not_free hk),
    ha.total, hnew.cr3, hnew.current_pgd⟩

theorem Fills.write (h : Fills s s1 f) (honly : Only {pageOf f} s1 s') (hpmm : s'.pmm = s1.pmm) :
    Fills s s' f := by
  refine ⟨h.was_free, hpmm ▸ h.used, hpmm ▸ h.free, ?_, hpmm ▸ h.total, honly.cr3.trans h.cr3,
    honly.current_pgd.trans h.current_pgd⟩
  intro k hk x hx
  have hne : k ≠ pageOf f := fun heq => hk (heq ▸ h.was_free)
  rw [honly.same k (fun hfree => hk (h.free hfree)) hne x hx, h.same k hk x hx]

theorem Fills.table_get (h : Fills s s' f) (hT : Typed T s L) (ht : Aligned t)
    (hmem : pageOf t ∈ L κ) (hi : i < 512) : table_get s'.mem t i = table_get s.mem t i :=
  (h.same _ (hT.not_free hmem)).table_get ht hi

theorem Fills.step (h : Fills s s' f) (hT : Typed T s L) (hL : ∀ κ, L κ ⊆ L' κ)
    (hfresh : ∀ κ, ∀ k ∈ L' κ, k ∈ L κ ∨ k = pageOf f) (htyped : Typed T s' L') :
    TypedStep T s s' L L' := by
  refine ⟨htyped, hL, ?_, h.free, ?_, ?_, ?_, h.total, h.cr3, h.current_pgd⟩
  · intro κ k hk
    rcases hfresh κ k hk with hk | rfl
    · exact .inl hk
    · exact .inr h.was_free
  · intro k hk
    simp [h.used, hk]
  · exact fun k hfree _ => h.same k hfree
  · exact fun t ht hmem i hi _ => h.table_get hT ht hmem hi

theorem Fills.page (h : Fills s s' f) (hT : Typed T s L) : TypedStep T s s' L L := by
  refine h.step hT (fun _ _ hk => hk) (fun _ _ hk => .inl hk) (hT.of_entries ?_ ?_)
  · intro κ k hk
    simp [h.used, hT.used κ k hk]
  · intro κ _ t ht hmem i hi
    exact h.table_get hT ht hmem (T.covers_lt hi)

theorem Fills.table (h : Fills s s' f) (hT : Typed T s L) (hf : Aligned f) (κ : ι)
    (hentries : T.depth κ < 3 → ∀ i, T.Covers κ i → T.Ok L κ i (Code.table_get s'.mem f i)) :
    TypedStep T s s' L (addFrame L κ (pageOf f)) := by
  have hne : ∀ κ', pageOf f ∉ L κ' := fun κ' hk => hT.not_free hk h.was_free
  have hmono : ∀ κ', L κ' ⊆ addFrame L κ (pageOf f) κ' := fun _ _ => .inl
  refine h.step hT hmono (fun κ' k hk => hk.imp_right And.right) ⟨?_, ?_, ?_⟩
  · rintro κ' k (hk | ⟨-, rfl⟩)
    · simp [h.used, hT.used κ' k hk]
    · simp [h.used]
  · rintro κ1 κ2 k (hk1 | ⟨rfl, rfl⟩) (hk2 | ⟨h2, heq⟩)
    · exact hT.apart κ1 κ2 k hk1 hk2
    · exact absurd (heq ▸ hk1) (hne κ1)
    · exact absurd hk2 (hne κ2)
    · exact h2.symm
  · rintro κ' hκ' t ht (hmem | ⟨rfl, hpage⟩) i hi
    · rw [h.table_get hT ht hmem (T.covers_lt hi)]
      exact T.ok_mono hmono (hT.entry κ' hκ' t ht hmem i hi)
    · rw [pageOf_inj ht hf hpage]
      exact T.ok_mono hmono (hentries hκ' i hi)

theorem typed_alloc (hT : Typed T s L) (κ : ι) (h : alloc_page s = .ok (f, s')) :
    TypedStep T s s' L (addFrame L κ (pageOf f)) := by
  have hnew := alloc_page_new h
  refine (alloc_page_fills h).table hT hnew.aligned κ fun _ i hi => ?_
  rw [hnew.table_get_zero (T.covers_lt hi)]
  exact T.ok_zero

/-! ## Entries -/

theorem typed_set (hT : Typed T s L) (ht : Aligned t) (hmem : pageOf t ∈ L κ) (hi : T.Covers κ i)
    {e : BitVec 64} (he : T.depth κ < 3 → T.Ok L κ i e) : TypedStep T s (table_set s t i e) L L := by
  have hi' := T.covers_lt hi
  refine ⟨⟨hT.used, hT.apart, ?_⟩, fun _ _ hk => hk, fun _ _ hk => .inl hk, Finset.Subset.refl _,
    fun _ hk => hk, ?_, ?_, rfl, rfl, rfl⟩
  · intro κ' hκ' u hu hmem' j hj
    rw [table_get_set s e ht hu hi' (T.covers_lt hj)]
    split_ifs with heq
    · obtain ⟨rfl, rfl⟩ := heq
      obtain rfl := hT.apart κ κ' _ hmem hmem'
      exact he hκ'
    · exact hT.entry κ' hκ' u hu hmem' j hj
  · intro k _ hk
    apply samePage_table_set s e ht hi'
    rintro rfl
    exact hk κ hmem
  · intro u hu hmem' j hj hnot
    rw [table_get_set s e ht hu hi' hj, if_neg]
    rintro ⟨rfl, rfl⟩
    obtain rfl := hT.apart κ T.root _ hmem hmem'
    exact hnot hi

theorem ensure_table_typed (hT : Typed T s L) (hκ : T.depth κ < 3) (ht : Aligned t)
    (hmem : pageOf t ∈ L κ) (hi : T.Covers κ i) {u : BitVec 64} (hu : UserFlag u)
    (hallows : T.Allows κ i u) (h : ensure_table s t i u = .ok s') :
    ∃ L', TypedStep T s s' L L' ∧ has (table_get s'.mem t i) PTE_PRESENT = true := by
  have hi' := T.covers_lt hi
  unfold ensure_table at h
  split_ifs at h with hpres
  · obtain ⟨⟨f, s1⟩, halloc, h⟩ := bind_ok.mp h
    cases h
    have hstep := typed_alloc hT (T.next κ i) halloc
    have hok := T.ok_table (L := addFrame L (T.next κ i) (pageOf f)) (alloc_page_new halloc).addr
      (.inr ⟨rfl, rfl⟩) hu hallows
    refine ⟨_, hstep.trans (typed_set hstep.typed ht (hstep.mono κ hmem) hi fun _ => hok), ?_⟩
    rw [table_get_set s1 _ ht ht hi' hi', if_pos ⟨rfl, rfl⟩]
    exact tableEntry_present f u
  · cases h
    simp only [Bool.not_eq_true', Bool.not_eq_false] at hpres
    have hok := T.ok_user (hT.entry κ hκ t ht hmem i hi) hu hallows
    refine ⟨L, typed_set hT ht hmem hi fun _ => hok, ?_⟩
    rw [table_get_set s _ ht ht hi' hi', if_pos ⟨rfl, rfl⟩, has_or, hpres, Bool.true_or]

/-! ## New spaces -/

structure RootStep (T : Typing ι) (s s' : Mm) (L L' : ι → Set Nat) (f : BitVec 64) : Prop
    extends TypedStep T s s' L L' where
  root : pageOf f ∈ L' T.root
  addr : pte_addr f = f
  top : ∀ i < 512, ¬ T.Covers T.root i →
    table_get s'.mem f i = table_get s.mem (pte_addr s.cr3) i

theorem new_root_typed (hT : Typed T s L) (hroot : pageOf (pte_addr s.cr3) ∈ L T.root)
    (halloc : alloc_page s = .ok (f, s1))
    (hcopy : copy_kernel_half (pte_addr s1.cr3) f s1 = .ok s') :
    RootStep T s s' L (addFrame L T.root (pageOf f)) f := by
  have hnew := alloc_page_new halloc
  have hfills := alloc_page_fills halloc
  obtain ⟨hpmm, honly, hget⟩ := copy_kernel_half_spec (addr_aligned _) hnew.aligned hcopy
  have hold : ∀ i < 512, table_get s1.mem (pte_addr s1.cr3) i =
      table_get s.mem (pte_addr s.cr3) i := by
    intro i hi
    rw [hnew.cr3, hfills.table_get hT (addr_aligned _) hroot hi]
  refine ⟨(hfills.write honly hpmm).table hT hnew.aligned T.root fun hd i hi => ?_,
    .inr ⟨rfl, rfl⟩, hnew.addr, fun i hi hnot => ?_⟩
  · have hi' := T.covers_lt hi
    rw [hget i hi']
    split_ifs
    · rw [hold i hi']
      exact hT.entry T.root hd _ (addr_aligned _) hroot i hi
    · rw [hnew.table_get_zero hi']
      exact T.ok_zero
  · have hlo : 256 ≤ i := Nat.not_lt.mp fun hlt => hnot (T.covers_user hi fun _ => hlt)
    rw [hget i hi, if_pos hlo, hold i hi]

theorem create_new_address_space_typed (hT : Typed T s L)
    (hroot : pageOf (pte_addr s.cr3) ∈ L T.root)
    (h : create_new_address_space s = .ok (f, s')) : ∃ L', RootStep T s s' L L' f := by
  unfold create_new_address_space at h
  obtain ⟨⟨g, s1⟩, halloc, h⟩ := bind_ok.mp h
  obtain ⟨s2, hcopy, h⟩ := bind_ok.mp h
  cases h
  exact ⟨_, new_root_typed hT hroot halloc hcopy⟩

/-! ## Clones -/

def ClonesTyped (T : Typing ι) (κ : ι) (clone : BitVec 64 → BitVec 64 → Mm → Except Halt Mm) :
    Prop :=
  ∀ old new s s' L, Typed T s L → Aligned old → pageOf old ∈ L κ → Aligned new →
    pageOf new ∈ L κ → clone old new s = .ok s' → ∃ L', TypedStep T s s' L L'

theorem loop_typed {body : Nat → Mm → Except Halt Mm} {n : Nat} (hT : Typed T s L)
    (hbody : ∀ i s s' L', i < n → Typed T s L' → (∀ κ, L κ ⊆ L' κ) → body i s = .ok s' →
      ∃ L'', TypedStep T s s' L' L'')
    (h : loop 0 n body s = .ok s') : ∃ L', TypedStep T s s' L L' := by
  refine loop_inv (fun _ s1 => ∃ L', TypedStep T s s1 L L') ?_ ⟨L, .refl hT⟩ h
  rintro i s1 s2 - hi ⟨L1, hstep⟩ hone
  obtain ⟨L2, hstep'⟩ := hbody i s1 s2 L1 (by omega) hstep.typed hstep.mono hone
  exact ⟨L2, hstep.trans hstep'⟩

theorem clone_pt_typed (hκ : T.depth κ = 3) : ClonesTyped T κ clone_pt := by
  intro old new s s' L hT _ _ hnew hmem h
  refine loop_typed hT ?_ h
  intro i s1 s2 L1 hi hT1 hmono hone
  unfold clone_pt_entry at hone
  split_ifs at hone
  · cases hone
    exact ⟨L1, .refl hT1⟩
  · obtain ⟨⟨f, s3⟩, halloc, hone⟩ := bind_ok.mp hone
    cases hone
    have hcopy := only_kmemcpy (s := s3) (pte_addr (table_get s1.mem old i)).toNat
      (alloc_page_new halloc).aligned
    have hstep := ((alloc_page_fills halloc).write hcopy rfl).page hT1
    have hcovers := T.covers_user (κ := κ) hi (by omega)
    exact ⟨L1, hstep.trans (typed_set hstep.typed hnew (hmono κ hmem) hcovers (by omega))⟩

theorem clone_entry_typed {inner : BitVec 64 → BitVec 64 → Mm → Except Halt Mm}
    {old new : BitVec 64} (hκ : T.depth κ < 3) (hinner : ClonesTyped T (T.next κ i) inner)
    (hT : Typed T s L) (hold : Aligned old) (holdm : pageOf old ∈ L κ) (hnew : Aligned new)
    (hmem : pageOf new ∈ L κ) (hi : T.Covers κ i)
    (hpres : has (table_get s.mem old i) PTE_PRESENT = true)
    (hsmall : T.depth κ = 2 → has (table_get s.mem old i) PTE_HUGE = false)
    (h : clone_entry inner old new i s = .ok s') : ∃ L', TypedStep T s s' L L' := by
  unfold clone_entry at h
  obtain ⟨⟨f, s1⟩, halloc, h⟩ := bind_ok.mp h
  have hpage := alloc_page_new halloc
  have hstep := typed_alloc hT (T.next κ i) halloc
  have hf : pageOf f ∈ addFrame L (T.next κ i) (pageOf f) (T.next κ i) := .inr ⟨rfl, rfl⟩
  have hset := typed_set hstep.typed hnew (hstep.mono κ hmem) hi fun hd =>
    T.ok_clone (hstep.typed.entry κ hd old hold (hstep.mono κ holdm) i hi) hpage.addr hf
  have hsub := hstep.mono _ (T.leads (hT.entry κ hκ old hold holdm i hi) hpres hsmall)
  obtain ⟨L', hrest⟩ :=
    hinner _ _ _ _ _ hset.typed (addr_aligned _) hsub hpage.aligned hf h
  exact ⟨L', hstep.trans (hset.trans hrest)⟩

theorem clone_pd_typed (hκ : T.depth κ = 2) : ClonesTyped T κ clone_pd := by
  intro old new s s' L hT hold holdm hnew hmem h
  refine loop_typed hT ?_ h
  intro i s1 s2 L1 hi hT1 hmono hone
  have hcovers := T.covers_user (κ := κ) hi (by omega)
  unfold clone_pd_entry at hone
  split_ifs at hone with hpres hhuge
  · cases hone
    exact ⟨L1, .refl hT1⟩
  · cases hone
    exact ⟨L1, typed_set hT1 hnew (hmono κ hmem) hcovers
      fun hd => hT1.entry κ hd old hold (hmono κ holdm) i hcovers⟩
  · simp only [Bool.not_eq_true', Bool.not_eq_false, Bool.not_eq_true] at hpres hhuge
    exact clone_entry_typed (by omega) (clone_pt_typed (by rw [T.depth_next, hκ])) hT1 hold
      (hmono κ holdm) hnew (hmono κ hmem) hcovers hpres (fun _ => hhuge) hone

theorem clone_pdpt_typed (hκ : T.depth κ = 1) : ClonesTyped T κ clone_pdpt := by
  intro old new s s' L hT hold holdm hnew hmem h
  refine loop_typed hT ?_ h
  intro i s1 s2 L1 hi hT1 hmono hone
  unfold clone_pdpt_entry at hone
  split_ifs at hone with hpres
  · cases hone
    exact ⟨L1, .refl hT1⟩
  · simp only [Bool.not_eq_true', Bool.not_eq_false] at hpres
    exact clone_entry_typed (by omega) (clone_pd_typed (by rw [T.depth_next, hκ])) hT1 hold
      (hmono κ holdm) hnew (hmono κ hmem) (T.covers_user hi (by omega)) hpres (by omega) hone

theorem clone_pml4_typed : ClonesTyped T T.root clone_pml4 := by
  intro old new s s' L hT hold holdm hnew hmem h
  refine loop_typed hT ?_ h
  intro i s1 s2 L1 hi hT1 hmono hone
  have hroot := T.depth_root
  unfold clone_pml4_entry at hone
  split_ifs at hone with hpres
  · cases hone
    exact ⟨L1, .refl hT1⟩
  · simp only [Bool.not_eq_true', Bool.not_eq_false] at hpres
    exact clone_entry_typed (by omega) (clone_pdpt_typed (by rw [T.depth_next, hroot])) hT1 hold
      (hmono _ holdm) hnew (hmono _ hmem) (T.covers_user (by omega) fun _ => hi) hpres (by omega) hone

theorem clone_address_space_typed (hT : Typed T s L) (hroot : pageOf (pte_addr s.cr3) ∈ L T.root)
    (h : clone_address_space s = .ok (f, s')) : ∃ L', RootStep T s s' L L' f := by
  unfold clone_address_space at h
  obtain ⟨⟨g, s1⟩, halloc, h⟩ := bind_ok.mp h
  obtain ⟨s2, hcopy, h⟩ := bind_ok.mp h
  obtain ⟨s3, hclone, h⟩ := bind_ok.mp h
  cases h
  have hstep := new_root_typed hT hroot halloc hcopy
  have haligned : Aligned f := hstep.addr ▸ addr_aligned f
  rw [(alloc_page_new halloc).cr3] at hclone
  obtain ⟨L', hrest⟩ := clone_pml4_typed _ _ _ _ _ hstep.typed (addr_aligned _)
    (hstep.mono _ hroot) haligned hstep.root hclone
  refine ⟨L', hstep.toTypedStep.trans hrest, hrest.mono _ hstep.root, hstep.addr, fun i hi hnot => ?_⟩
  rw [hrest.upper f haligned hstep.root i hi hnot, hstep.top i hi hnot]

end Relis.Paging
