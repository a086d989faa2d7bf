import Relis.Paging.Space

/-!
# A copy of a tree of tables

The loops of `clone_address_space` are the same at every level: each present entry gets a
new frame, and what it leads to is copied below.
-/

open Relis.Bytes Relis.Run Relis.Code Relis.PageAlloc

namespace Relis.Paging

/-! ## Below a table of any depth -/

def Path (b : Nat) : List Nat → Prop
  | [] => True
  | i :: p => i < b ∧ Path 512 p

def nodeAt (m : Mem) (d : Nat) (t : BitVec 64) (p : List Nat) : Option (BitVec 64) :=
  Radix.node child (table_get m) d t p

def slotAt (m : Mem) (d : Nat) (t : BitVec 64) (p : List Nat) (i : Nat) : BitVec 64 :=
  Radix.slot child (table_get m) 0 d t p i

variable {s0 s s' : Mm} {m m0 : Mem} {b d i : Nat} {p : List Nat} {old new t f e : BitVec 64}
  {F : Finset Nat}

theorem userPath_iff : UserPath p ↔ Path 256 p := by
  have hall : ∀ q, Path 512 q ↔ ∀ j ∈ q, j < 512 := by
    intro q
    induction q with
    | nil => simp [Path]
    | cons j q ih => simp [Path, ih]
  cases p with
  | nil => exact Iff.rfl
  | cons i p => simp [UserPath, Path, hall]

theorem Path.of_prefix {q : List Nat} (h : q <+: p) (hp : Path b p) : Path b q := by
  induction q generalizing b p with
  | nil => trivial
  | cons i q ih =>
    obtain ⟨x, rfl⟩ := h
    exact ⟨hp.1, ih (List.prefix_append q x) hp.2⟩

theorem Path.last_lt (hb : b ≤ 512) (h : Path b (p ++ [i])) : i < 512 := by
  induction p generalizing b with
  | nil => exact lt_of_lt_of_le h.1 hb
  | cons j p ih => exact ih (le_refl 512) h.2

theorem nodeAt_nil : nodeAt m d t [] = some t := rfl

theorem nodeAt_cons : nodeAt m d t (i :: p) =
    (child d (table_get m t i)).bind fun t' => nodeAt m (d + 1) t' p := rfl

theorem slotAt_cons {j : Nat} : slotAt m d t (j :: p) i =
    match child d (table_get m t j) with
    | some t' => slotAt m (d + 1) t' p i
    | none => 0 := by
  unfold slotAt Radix.slot
  rw [Radix.node]
  cases child d (table_get m t j) <;> rfl

theorem nodeAt_aligned {x : BitVec 64} (ht : Aligned t) (h : nodeAt m d t p = some x) :
    Aligned x := by
  induction p generalizing d t with
  | nil =>
    cases h
    exact ht
  | cons i p ih =>
    rw [nodeAt_cons, Option.bind_eq_some_iff] at h
    obtain ⟨t', hc, h⟩ := h
    rw [(child_eq_some hc).1] at h
    exact ih (addr_aligned _) h

def framesAt (m : Mem) (b d : Nat) (t : BitVec 64) : Set Nat :=
  {k | ∃ q x, Path b q ∧ d + q.length ≤ 4 ∧ nodeAt m d t q = some x ∧ k = pageOf x}

theorem nodeAt_same {m' : Mem} (ht : Aligned t) (hb : b ≤ 512)
    (h : ∀ k ∈ framesAt m b d t, SamePage m m' k) (hp : Path b p) (hn : d + p.length ≤ 4) :
    nodeAt m' d t p = nodeAt m d t p := by
  apply Radix.node_congr
  intro q i x hq hx
  have hlen := hq.length_le
  rw [List.length_append, List.length_singleton] at hlen
  have hqi := hp.of_prefix hq
  have hframe : pageOf x ∈ framesAt m b d t :=
    ⟨q, x, hqi.of_prefix (List.prefix_append q [i]), by omega, hx, rfl⟩
  rw [(h _ hframe).table_get (nodeAt_aligned ht hx) (hqi.last_lt hb)]

theorem slotAt_same {m' : Mem} (ht : Aligned t) (hb : b ≤ 512)
    (h : ∀ k ∈ framesAt m b d t, SamePage m m' k) (hp : Path b (p ++ [i])) (hn : d + p.length ≤ 3) :
    slotAt m' d t p i = slotAt m d t p i := by
  have hinit := hp.of_prefix (List.prefix_append p [i])
  have hnode := nodeAt_same ht hb h hinit (by omega)
  unfold slotAt Radix.slot
  unfold nodeAt at hnode
  rw [hnode]
  cases hx : Radix.node child (table_get m) d t p with
  | none => rfl
  | some x =>
    have hframe : pageOf x ∈ framesAt m b d t := ⟨p, x, hinit, by omega, hx, rfl⟩
    exact (h _ hframe).table_get (nodeAt_aligned ht hx) (hp.last_lt hb)

/-! ## What a copy is -/

/-- How the entry `e` of a table at depth `d` is copied. -/
inductive EntryCopied (d : Nat) (e : BitVec 64) : BitVec 64 → Prop
  | absent (h : has e PTE_PRESENT = false) : EntryCopied d e 0
  | huge (hd : d = 2) (hp : has e PTE_PRESENT = true) (hh : has e PTE_HUGE = true) : EntryCopied d e e
  | small (f : BitVec 64) (hp : has e PTE_PRESENT = true) (hd : d = 1 ∨ d = 2 → has e PTE_HUGE = false)
      (hf : pte_addr f = f) : EntryCopied d e (cloneEntry f e)

def SameBytes (m0 m : Mem) (old new : BitVec 64) : Prop :=
  ∀ x < 4096, m (new.toNat + x) = m0 (old.toNat + x)

/-- In `s` the tree below `new` is a copy of what is below `old` in `m0`, in frames taken from `F`. -/
structure Copy (b d : Nat) (m0 : Mem) (F : Finset Nat) (s : Mm) (old new : BitVec 64) : Prop where
  fresh : ∀ p t, p ≠ [] → Path b p → d + p.length ≤ 4 → nodeAt s.mem d new p = some t →
    pageOf t ∈ F ∧ s.pmm.page_used (pageOf t) = true
  inj : ∀ p q t, Path b p → Path b q → d + p.length ≤ 4 → d + q.length ≤ 4 →
    nodeAt s.mem d new p = some t → nodeAt s.mem d new q = some t → p = q
  slots : ∀ p i, Path b (p ++ [i]) → d + p.length ≤ 3 →
    EntryCopied (d + p.length) (slotAt m0 d old p i) (slotAt s.mem d new p i)
  pages : ∀ p t, Path b p → d + p.length = 4 → nodeAt m0 d old p = some t →
    ∃ t', nodeAt s.mem d new p = some t' ∧ SameBytes m0 s.mem t t'

structure Parent (b d : Nat) (s : Mm) (old : BitVec 64) : Prop where
  aligned : Aligned old
  kept : ∀ k ∈ framesAt s.mem b d old, k ∉ freePages s.pmm
  small : ∀ p i, Path b (p ++ [i]) → d + p.length = 1 → has (slotAt s.mem d old p i) PTE_PRESENT = true →
    has (slotAt s.mem d old p i) PTE_HUGE = false

theorem Parent.child (h : Parent b d s old) (hi : i < b)
    (hc : child d (table_get s.mem old i) = some t) : Parent 512 (d + 1) s t := by
  refine ⟨?_, ?_, ?_⟩
  · rw [(child_eq_some hc).1]
    exact addr_aligned _
  · rintro k ⟨q, x, hq, hn, hx, rfl⟩
    apply h.kept
    refine ⟨i :: q, x, ⟨hi, hq⟩, by simp; omega, ?_, rfl⟩
    rw [nodeAt_cons, hc, Option.bind_some, hx]
  · intro p j hp hn
    have hsmall := h.small (i :: p) j ⟨hi, hp⟩ (by simp; omega)
    rw [slotAt_cons, hc] at hsmall
    exact hsmall

theorem Copy.keep (h : Copy b d m0 F s old new) (hb : b ≤ 512) (hnew : Aligned new)
    (hsame : ∀ k ∈ framesAt s.mem b d new, SamePage s.mem s'.mem k)
    (hused : ∀ k, s.pmm.page_used k = true → s'.pmm.page_used k = true) :
    Copy b d m0 F s' old new := by
  have hnode := fun {p} => nodeAt_same (p := p) hnew hb hsame
  refine ⟨?_, ?_, ?_, ?_⟩
  · intro p t hne hp hn ht
    rw [hnode hp hn] at ht
    obtain ⟨hF, hu⟩ := h.fresh p t hne hp hn ht
    exact ⟨hF, hused _ hu⟩
  · intro p q t hp hq hn hn' ht ht'
    rw [hnode hp hn] at ht
    rw [hnode hq hn'] at ht'
    exact h.inj p q t hp hq hn hn' ht ht'
  · intro p i hp hn
    rw [slotAt_same hnew hb hsame hp hn]
    exact h.slots p i hp hn
  · intro p t hp hn ht
    obtain ⟨t', ht', hbytes⟩ := h.pages p t hp hn ht
    refine ⟨t', by rw [hnode hp (by omega), ht'], ?_⟩
    intro x hx
    have halign := nodeAt_aligned hnew ht'
    unfold Aligned at halign
    have hframe : pageOf t' ∈ framesAt s.mem b d new := ⟨p, t', hp, by omega, ht', rfl⟩
    rw [hsame _ hframe (t'.toNat + x) (by unfold pageOf; omega), hbytes x hx]

theorem Copy.mono {F' : Finset Nat} (h : Copy b d m0 F s old new) (hsub : F ⊆ F') :
    Copy b d m0 F' s old new := by
  refine ⟨?_, h.inj, h.slots, h.pages⟩
  intro p t hne hp hn ht
  obtain ⟨hF, hu⟩ := h.fresh p t hne hp hn ht
  exact ⟨hsub hF, hu⟩

/-! ## One entry -/

theorem child_cloneEntry (hp : has e PTE_PRESENT = true) (hd : d = 1 ∨ d = 2 → has e PTE_HUGE = false)
    (hf : pte_addr f = f) : child d (cloneEntry f e) = some f := by
  have hflags := cloneEntry_flags hf e
  rw [child_of_small, cloneEntry_addr hf]
  · rwa [has_of_flags hflags (by decide)]
  · intro h
    rw [has_of_flags hflags (by decide)]
    exact hd h

theorem child_huge (hd : d = 2) (hh : has e PTE_HUGE = true) : child d e = none := by
  subst hd
  simp [child, hh]

inductive EntryCopy (d : Nat) (m0 : Mem) (F : Finset Nat) (s : Mm) (old new : BitVec 64) (i : Nat) : Prop
  | absent (h : has (table_get m0 old i) PTE_PRESENT = false) (he : table_get s.mem new i = 0)
  | huge (hd : d = 2) (hp : has (table_get m0 old i) PTE_PRESENT = true)
      (hh : has (table_get m0 old i) PTE_HUGE = true) (he : table_get s.mem new i = table_get m0 old i)
  | small (f : BitVec 64) (hp : has (table_get m0 old i) PTE_PRESENT = true)
      (hd : d = 1 ∨ d = 2 → has (table_get m0 old i) PTE_HUGE = false)
      (hf : pte_addr f = f) (hF : pageOf f ∈ F) (hused : s.pmm.page_used (pageOf f) = true)
      (he : table_get s.mem new i = cloneEntry f (table_get m0 old i))
      (below : Copy 512 (d + 1) m0 F s (pte_addr (table_get m0 old i)) f)

theorem EntryCopy.child_cases (h : EntryCopy d m0 F s old new i) :
    (child d (table_get m0 old i) = none ∧ child d (table_get s.mem new i) = none) ∨
      ∃ x f, child d (table_get m0 old i) = some x ∧ child d (table_get s.mem new i) = some f ∧
        Copy 512 (d + 1) m0 F s x f := by
  cases h with
  | absent h he =>
    rw [he]
    exact .inl ⟨child_of_absent h, child_of_absent (zero_has _)⟩
  | huge hd hp hh he =>
    rw [he]
    exact .inl ⟨child_huge hd hh, child_huge hd hh⟩
  | small f hp hd hf hF hused he below =>
    rw [he]
    exact .inr ⟨_, f, child_of_small hp hd, child_cloneEntry hp hd hf, below⟩

theorem EntryCopy.copied (h : EntryCopy d m0 F s old new i) :
    EntryCopied d (table_get m0 old i) (table_get s.mem new i) := by
  cases h with
  | absent h he =>
    rw [he]
    exact .absent h
  | huge hd hp hh he =>
    rw [he]
    exact .huge hd hp hh
  | small f hp hd hf hF hused he below =>
    rw [he]
    exact .small f hp hd hf

def entryFrames (m : Mem) (d : Nat) (t : BitVec 64) (i : Nat) : Set Nat :=
  {k | ∃ q x, Path 512 q ∧ d + 1 + q.length ≤ 4 ∧ nodeAt m d t (i :: q) = some x ∧ k = pageOf x}

theorem entryFrames_of_none (h : child d (table_get m t i) = none) : entryFrames m d t i = ∅ := by
  rw [Set.eq_empty_iff_forall_notMem]
  rintro k ⟨q, x, -, -, hx, -⟩
  rw [nodeAt_cons, h, Option.bind_none] at hx
  cases hx

theorem entryFrames_of_some (h : child d (table_get m t i) = some f) :
    entryFrames m d t i = framesAt m 512 (d + 1) f := by
  ext k
  simp only [entryFrames, framesAt, nodeAt_cons, h, Option.bind_some]

theorem EntryCopy.frames (h : EntryCopy d m0 F s old new i) {k : Nat}
    (hk : k ∈ entryFrames s.mem d new i) : k ∈ F ∧ s.pmm.page_used k = true := by
  cases h with
  | absent h he =>
    rw [entryFrames_of_none (by rw [he]; exact child_of_absent (zero_has _))] at hk
    exact absurd hk (Set.notMem_empty k)
  | huge hd hp hh he =>
    rw [entryFrames_of_none (by rw [he]; exact child_huge hd hh)] at hk
    exact absurd hk (Set.notMem_empty k)
  | small f hp hd hf hF hused he below =>
    rw [entryFrames_of_some (by rw [he]; exact child_cloneEntry hp hd hf)] at hk
    obtain ⟨q, x, hq, hn, hx, rfl⟩ := hk
    by_cases hnil : q = []
    · subst hnil
      cases hx
      exact ⟨hF, hused⟩
    · exact below.fresh q x hnil hq hn hx

theorem EntryCopy.keep (h : EntryCopy d m0 F s old new i)
    (he : table_get s'.mem new i = table_get s.mem new i)
    (hsame : ∀ k ∈ entryFrames s.mem d new i, SamePage s.mem s'.mem k)
    (hused : ∀ k, s.pmm.page_used k = true → s'.pmm.page_used k = true) :
    EntryCopy d m0 F s' old new i ∧ entryFrames s'.mem d new i = entryFrames s.mem d new i := by
  cases h with
  | absent h0 he0 =>
    rw [he0] at he
    refine ⟨.absent h0 he, ?_⟩
    have hnone := child_of_absent (d := d) (zero_has PTE_PRESENT)
    rw [entryFrames_of_none (by rw [he]; exact hnone), entryFrames_of_none (by rw [he0]; exact hnone)]
  | huge hd hp hh he0 =>
    rw [he0] at he
    refine ⟨.huge hd hp hh he, ?_⟩
    have hnone := child_huge hd hh
    rw [entryFrames_of_none (by rw [he]; exact hnone), entryFrames_of_none (by rw [he0]; exact hnone)]
  | small f hp hd hf hF hu he0 below =>
    have hchild := child_cloneEntry hp hd hf
    have halign : Aligned f := by
      rw [← hf]
      exact addr_aligned f
    rw [he0] at he
    have hframes := entryFrames_of_some (show child d (table_get s.mem new i) = some f by rwa [he0])
    have hframes' := entryFrames_of_some (show child d (table_get s'.mem new i) = some f by rwa [he])
    rw [hframes] at hsame ⊢
    refine ⟨.small f hp hd hf hF (hused _ hu) he (below.keep (le_refl 512) halign hsame hused), ?_⟩
    rw [hframes']
    ext k
    unfold framesAt
    constructor
    · rintro ⟨q, x, hq, hn, hx, rfl⟩
      rw [nodeAt_same halign (le_refl 512) hsame hq hn] at hx
      exact ⟨q, x, hq, hn, hx, rfl⟩
    · rintro ⟨q, x, hq, hn, hx, rfl⟩
      rw [← nodeAt_same halign (le_refl 512) hsame hq hn] at hx
      exact ⟨q, x, hq, hn, hx, rfl⟩

theorem EntryCopy.mono {F' : Finset Nat} (h : EntryCopy d m0 F s old new i) (hsub : F ⊆ F') :
    EntryCopy d m0 F' s old new i := by
  cases h with
  | absent h he => exact .absent h he
  | huge hd hp hh he => exact .huge hd hp hh he
  | small f hp hd hf hF hused he below => exact .small f hp hd hf (hsub hF) hused he (below.mono hsub)

/-! ## One table -/

structure EntryStep (d : Nat) (m0 : Mem) (s s' : Mm) (old new : BitVec 64) (i : Nat) : Prop where
  only : Only {pageOf new} s s'
  others : ∀ j < 512, j ≠ i → table_get s'.mem new j = table_get s.mem new j
  entry : EntryCopy d m0 (freePages s.pmm) s' old new i

structure Partly (n d : Nat) (m0 : Mem) (s s' : Mm) (old new : BitVec 64) : Prop where
  only : Only {pageOf new} s s'
  rest : ∀ j < 512, n ≤ j → table_get s'.mem new j = table_get s.mem new j
  done : ∀ i < n, EntryCopy d m0 (freePages s.pmm) s' old new i
  apart : ∀ i < n, ∀ j < n, i ≠ j → Disjoint (entryFrames s'.mem d new i) (entryFrames s'.mem d new j)

theorem Partly.step {n : Nat} {s1 : Mm} (h : Partly n d m0 s s1 old new) (hn : n < 512)
    (hnew : pageOf new ∉ freePages s.pmm) (hstep : EntryStep d m0 s1 s' old new n) :
    Partly (n + 1) d m0 s s' old new := by
  have hkeep : ∀ i < n, EntryCopy d m0 (freePages s.pmm) s' old new i ∧
      entryFrames s'.mem d new i = entryFrames s1.mem d new i := by
    intro i hi
    apply (h.done i hi).keep (hstep.others i (by omega) (by omega)) _ hstep.only.used
    intro k hk
    obtain ⟨hF, hused⟩ := (h.done i hi).frames hk
    apply hstep.only.same k (not_free_of_used hused)
    rintro rfl
    exact hnew hF
  -- Old frames were in use when the step began, and the frames of the step were free.
  have hnext : ∀ i < n, Disjoint (entryFrames s'.mem d new i) (entryFrames s'.mem d new n) := by
    intro i hi
    rw [(hkeep i hi).2, Set.disjoint_left]
    intro k hk hk'
    exact not_free_of_used ((h.done i hi).frames hk).2 (hstep.entry.frames hk').1
  refine ⟨h.only.trans hstep.only, ?_, ?_, ?_⟩
  · intro j hj hnj
    rw [hstep.others j hj (by omega), h.rest j hj (by omega)]
  · intro i hi
    by_cases hin : i = n
    · subst hin
      exact hstep.entry.mono h.only.free
    · exact (hkeep i (by omega)).1
  · intro i hi j hj hij
    rcases Nat.lt_succ_iff_lt_or_eq.mp hi with hi' | rfl
    · rcases Nat.lt_succ_iff_lt_or_eq.mp hj with hj' | rfl
      · rw [(hkeep i hi').2, (hkeep j hj').2]
        exact h.apart i hi' j hj' hij
      · exact hnext i hi'
    · exact (hnext j (by omega)).symm

theorem mem_entryFrames {q : List Nat} (hp : Path b (i :: q)) (hn : d + (i :: q).length ≤ 4)
    (ht : nodeAt m d new (i :: q) = some t) : pageOf t ∈ entryFrames m d new i := by
  rw [List.length_cons] at hn
  exact ⟨q, t, hp.2, by omega, ht, rfl⟩

theorem Partly.fresh {q : List Nat} (h : Partly b d m0 s s' old new) (hp : Path b (i :: q))
    (hn : d + (i :: q).length ≤ 4) (ht : nodeAt s'.mem d new (i :: q) = some t) :
    pageOf t ∈ freePages s.pmm ∧ s'.pmm.page_used (pageOf t) = true :=
  (h.done i hp.1).frames (mem_entryFrames hp hn ht)

theorem Partly.inj (h : Partly b d m0 s s' old new) (hnew : pageOf new ∉ freePages s.pmm)
    {p q : List Nat} (hp : Path b p) (hq : Path b q) (hn : d + p.length ≤ 4)
    (hn' : d + q.length ≤ 4) (ht : nodeAt s'.mem d new p = some t)
    (ht' : nodeAt s'.mem d new q = some t) : p = q := by
  cases p with
  | nil =>
    cases q with
    | nil => rfl
    | cons j q =>
      cases ht
      exact absurd (h.fresh hq hn' ht').1 hnew
  | cons i p =>
    cases q with
    | nil =>
      cases ht'
      exact absurd (h.fresh hp hn ht).1 hnew
    | cons j q =>
      by_cases hij : i = j
      · subst hij
        rw [nodeAt_cons] at ht ht'
        rw [List.length_cons] at hn hn'
        rcases (h.done i hp.1).child_cases with ⟨-, hc⟩ | ⟨x, f, -, hc, below⟩
        · rw [hc, Option.bind_none] at ht
          cases ht
        · rw [hc, Option.bind_some] at ht ht'
          rw [below.inj p q t hp.2 hq.2 (by omega) (by omega) ht ht']
      · have hne := Set.disjoint_left.mp (h.apart i hp.1 j hq.1 hij) (mem_entryFrames hp hn ht)
        exact absurd (mem_entryFrames hq hn' ht') hne

theorem Partly.copy (h : Partly b d m0 s s' old new) (hd : d ≤ 3)
    (hnew : pageOf new ∉ freePages s.pmm) : Copy b d m0 (freePages s.pmm) s' old new := by
  refine ⟨?_, fun p q t => h.inj hnew, ?_, ?_⟩
  · intro p t hne hp hn ht
    cases p with
    | nil => exact absurd rfl hne
    | cons i q => exact h.fresh hp hn ht
  · intro p i hp hn
    cases p with
    | nil => exact (h.done i hp.1).copied
    | cons j p =>
      rw [slotAt_cons, slotAt_cons]
      rw [List.length_cons] at hn ⊢
      rcases (h.done j hp.1).child_cases with ⟨hc0, hc⟩ | ⟨x, f, hc0, hc, below⟩
      · rw [hc0, hc]
        exact .absent (zero_has _)
      · rw [hc0, hc, show d + (p.length + 1) = d + 1 + p.length by omega]
        exact below.slots p i hp.2 (by omega)
  · intro p t hp hn ht
    cases p with
    | nil =>
      rw [List.length_nil] at hn
      omega
    | cons j p =>
      rw [nodeAt_cons] at ht ⊢
      rw [List.length_cons] at hn
      rcases (h.done j hp.1).child_cases with ⟨hc0, -⟩ | ⟨x, f, hc0, hc, below⟩
      · rw [hc0, Option.bind_none] at ht
        cases ht
      · rw [hc0, Option.bind_some] at ht
        rw [hc, Option.bind_some]
        exact below.pages p t hp.2 (by omega) ht

theorem copy_loop (d : Nat) (m0 : Mem) (old : BitVec 64) {body : Nat → Mm → Except Halt Mm}
    (hb : b ≤ 512) (hd : d ≤ 3)
    (hnew : pageOf new ∉ freePages s.pmm) (hzero : ∀ i < b, table_get s.mem new i = 0)
    (hbody : ∀ i s1 s2, i < b → Only {pageOf new} s s1 → table_get s1.mem new i = 0 →
      body i s1 = .ok s2 → EntryStep d m0 s1 s2 old new i)
    (h : loop 0 b body s = .ok s') :
    Only {pageOf new} s s' ∧ Copy b d m0 (freePages s.pmm) s' old new ∧
      ∀ j < 512, b ≤ j → table_get s'.mem new j = table_get s.mem new j := by
  have hinv := loop_inv (fun n s1 => Partly n d m0 s s1 old new) ?_ ?_ h
  · rw [Nat.zero_add] at hinv
    exact ⟨hinv.only, hinv.copy hd hnew, hinv.rest⟩
  · intro i s1 s2 _ hi hpart hrun
    rw [Nat.zero_add] at hi
    apply hpart.step (by omega) hnew
    apply hbody i s1 s2 hi hpart.only _ hrun
    rw [hpart.rest i (by omega) (le_refl i), hzero i hi]
  · exact ⟨Only.refl _ _, fun _ _ _ => rfl, by omega, by omega⟩

theorem copy_loop_total (d : Nat) (m0 : Mem) (old : BitVec 64) {body : Nat → Mm → Except Halt Mm}
    {cost : Nat → Nat} {n : Nat} (hb : b ≤ 512) (hnew : pageOf new ∉ freePages s.pmm)
    (hzero : ∀ i < b, table_get s.mem new i = 0)
    (hbody : ∀ i s1 s2, i < b → Only {pageOf new} s s1 → table_get s1.mem new i = 0 →
      body i s1 = .ok s2 → EntryStep d m0 s1 s2 old new i)
    (htotal : ∀ i s1 k, i < b → Only {pageOf new} s s1 → Pool (k + cost i) s1 →
      ∃ s2, body i s1 = .ok s2 ∧ Pool k s2)
    (h : Pool (n + ((List.range' 0 b).map cost).sum) s) :
    ∃ s', loop 0 b body s = .ok s' ∧ Pool n s' := by
  have hinv := loop_total (fun i s1 => Partly i d m0 s s1 old new ∧
    Pool (n + ((List.range' i (b - i)).map cost).sum) s1) body 0 b s ?_ ?_
  · obtain ⟨s', hloop, -, hpool⟩ := hinv
    rw [Nat.zero_add, Nat.sub_self] at hpool
    exact ⟨s', hloop, hpool⟩
  · rintro i s1 - hi ⟨hpart, hpool⟩
    rw [Nat.zero_add] at hi
    rw [show b - i = b - (i + 1) + 1 by omega, List.range'_succ, List.map_cons, List.sum_cons,
      Nat.add_comm (cost i), ← Nat.add_assoc] at hpool
    obtain ⟨s2, hrun, hpool⟩ := htotal i s1 _ hi hpart.only hpool
    have hz : table_get s1.mem new i = 0 := by rw [hpart.rest i (by omega) (le_refl i), hzero i hi]
    exact ⟨s2, hrun, hpart.step (by omega) hnew (hbody i s1 s2 hi hpart.only hz hrun), hpool⟩
  · exact ⟨⟨Only.refl _ _, fun _ _ _ => rfl, by omega, by omega⟩, h⟩

end Relis.Paging
