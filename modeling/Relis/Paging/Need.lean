import Mathlib.Algebra.Order.BigOperators.Group.List
import Relis.Paging.Owner

/-!
# How many pages a clone takes

One for the root and one for each path to a table or a page of the user half.
-/

open Relis.Bytes Relis.Run Relis.Code Relis.PageAlloc

namespace Relis.Paging

variable {s s' : Mm} {roots : Set (BitVec 64)} {r t : BitVec 64} {b d i : Nat}

/-! ## Sets of paths -/

def startingAt (S : Finset (List Nat)) (i : Nat) : Finset (List Nat) :=
  S.filter fun p => p.head? = some i

theorem sum_startingAt_le (S : Finset (List Nat)) (b : Nat) :
    ((List.range' 0 b).map fun i => (startingAt S i).card).sum ≤
      (S.filter fun p => ∃ i < b, p.head? = some i).card := by
  induction b with
  | zero => simp
  | succ b ih =>
    rw [List.range'_1_concat, List.map_append, List.sum_append, List.map_singleton,
      List.sum_singleton, Nat.zero_add]
    refine (Nat.add_le_add_right ih _).trans ?_
    rw [← Finset.card_union_of_disjoint]
    · apply Finset.card_le_card
      intro p hp
      simp only [startingAt, Finset.mem_union, Finset.mem_filter] at hp ⊢
      rcases hp with ⟨hp, i, hi, hhead⟩ | ⟨hp, hhead⟩
      · exact ⟨hp, i, by omega, hhead⟩
      · exact ⟨hp, b, by omega, hhead⟩
    · rw [Finset.disjoint_left]
      simp only [startingAt, Finset.mem_filter, not_and]
      rintro p ⟨-, i, hi, hhead⟩ - hb
      rw [hhead, Option.some.injEq] at hb
      omega

def under (S : Finset (List Nat)) (i : Nat) : Finset (List Nat) :=
  ((startingAt S i).erase [i]).image List.tail

theorem under_card (S : Finset (List Nat)) (h : [i] ∈ S) :
    1 + (under S i).card ≤ (startingAt S i).card := by
  have hmem : [i] ∈ startingAt S i := Finset.mem_filter.mpr ⟨h, rfl⟩
  have hcard : (under S i).card ≤ ((startingAt S i).erase [i]).card := Finset.card_image_le
  rw [Finset.card_erase_of_mem hmem] at hcard
  have hpos := Finset.card_pos.mpr ⟨_, hmem⟩
  omega

theorem mem_under {S : Finset (List Nat)} {p : List Nat} (h : i :: p ∈ S) (hp : p ≠ []) :
    p ∈ under S i := by
  refine Finset.mem_image.mpr ⟨i :: p, Finset.mem_erase.mpr ⟨?_, Finset.mem_filter.mpr ⟨h, rfl⟩⟩, rfl⟩
  intro heq
  exact hp (List.cons.inj heq).2

/-! ## The pages of a table -/

theorem needAt_sum_le_of {S : Finset (List Nat)} (hd : d ≤ 3) (hpar : Parent b d s t)
    (hS : ∀ p, p ≠ [] → Path b p → d + p.length ≤ 4 → nodeAt s.mem d t p ≠ none → p ∈ S)
    (hbelow : ∀ i t', i < b → child d (table_get s.mem t i) = some t' →
      need s.mem (3 - d) t' ≤ (under S i).card) :
    ((List.range' 0 b).map fun i => needAt s.mem d (table_get s.mem t i)).sum ≤ S.card := by
  have hentry : ∀ i ∈ List.range' 0 b, needAt s.mem d (table_get s.mem t i) ≤ (startingAt S i).card := by
    intro i hi
    rw [List.mem_range'_1] at hi
    unfold needAt entryNeed
    split_ifs with hpres
    · rw [Bool.and_eq_true, Bool.not_eq_true', Bool.and_eq_false_iff] at hpres
      have hc : child d (table_get s.mem t i) = some (pte_addr (table_get s.mem t i)) := by
        refine child_of_small hpres.1 ?_
        rintro (rfl | rfl)
        · exact hpar.small [] i ⟨by omega, trivial⟩ rfl hpres.1
        · exact hpres.2.resolve_left (by decide)
      have hone : [i] ∈ S := by
        refine hS [i] (by simp) ⟨by omega, trivial⟩ (by simp; omega) ?_
        rw [nodeAt_cons, hc, Option.bind_some, nodeAt_nil]
        simp
      exact (Nat.add_le_add_left (hbelow i _ (by omega) hc) 1).trans (under_card S hone)
    · exact Nat.zero_le _
  exact (List.sum_le_sum hentry).trans ((sum_startingAt_le S b).trans (Finset.card_filter_le _ _))

theorem needAt_sum_le {S : Finset (List Nat)} (hd : d ≤ 3) (hpar : Parent b d s t)
    (hS : ∀ p, p ≠ [] → Path b p → d + p.length ≤ 4 → nodeAt s.mem d t p ≠ none → p ∈ S) :
    ((List.range' 0 b).map fun i => needAt s.mem d (table_get s.mem t i)).sum ≤ S.card := by
  induction hn : 3 - d generalizing b d t S with
  | zero =>
    refine (needAt_sum_le_of hd hpar hS fun i t' _ _ => ?_)
    rw [hn]
    exact Nat.zero_le _
  | succ n ih =>
    refine (needAt_sum_le_of hd hpar hS fun i t' hi hc => ?_)
    have hneed : need s.mem (3 - d) t' =
        ((List.range' 0 512).map fun j => needAt s.mem (d + 1) (table_get s.mem t' j)).sum := by
      rw [hn, need, show 3 - n = d + 1 by omega]
      simp only [needAt, show 3 - (d + 1) = n by omega]
    rw [hneed]
    refine ih (by omega) (hpar.child hi hc) (fun p hne hp hlen hnode => mem_under ?_ hne) (by omega)
    refine hS (i :: p) (by simp) ⟨hi, hp⟩ (by rw [List.length_cons]; omega) ?_
    rw [nodeAt_cons, hc]
    exact hnode
/-! ## The paths of a space -/

def PathsIn (m : Mem) (r : BitVec 64) (S : Finset (List Nat)) : Prop :=
  ∀ p, p ≠ [] → UserPath p → p.length ≤ 4 → node m r p ≠ none → p ∈ S

def wayTo (v : BitVec 64) : Finset (List Nat) := (Finset.range 4).image fun n => pathOf v (n + 1)

variable {S : Finset (List Nat)}

theorem Created.paths (h : Created s s' r) : PathsIn s'.mem r ∅ := by
  intro p hne hp _ hnode
  rw [node_of_empty h.user hp, if_neg hne] at hnode
  exact absurd rfl hnode

theorem PathsIn.of_only {W : Set Nat} (h : PathsIn s.mem r S) (hT : Tables s roots) (hr : r ∈ roots)
    (honly : Only W s s') (hW : ∀ r ∈ roots, Disjoint (userPages s.mem r) W) :
    PathsIn s'.mem r S := by
  intro p hne hp hn hnode
  rw [hT.node_only honly hW hr hp hn] at hnode
  exact h p hne hp hn hnode

theorem PathsIn.map {virt phys flags : BitVec 64} (h : PathsIn s.mem r S) (hr : r ∈ roots)
    (hm : Mapped s s' roots r virt phys flags) : PathsIn s'.mem r (S ∪ wayTo virt) := by
  intro p hne hp hn hnode
  rcases List.eq_nil_or_concat' p with rfl | ⟨q, j, rfl⟩
  · exact absurd rfl hne
  rw [List.length_append, List.length_singleton] at hn
  rw [Finset.mem_union]
  by_cases hon : q ++ [j] = pathOf virt (q.length + 1)
  · refine .inr (Finset.mem_image.mpr ⟨q.length, Finset.mem_range.mpr (by omega), hon.symm⟩)
  · refine .inl (h _ hne hp (by simp; omega) ?_)
    rw [node_of_slot, hm.slots r hr q j hp.init (by omega) hp.last_lt (fun hhere => hon hhere.2)]
      at hnode
    rwa [node_of_slot]

theorem clone_address_space_paths {n : Nat} (hpar : Parent 256 0 s (pte_addr s.cr3))
    (hS : PathsIn s.mem (pte_addr s.cr3) S) (h : Pool (n + S.card + 1) s) :
    ∃ new s', clone_address_space s = .ok (new, s') ∧ Pool n s' := by
  have hneed := needAt_sum_le (S := S) (Nat.zero_le 3) hpar fun p hne hp hn hnode =>
    hS p hne (userPath_iff.mpr hp) (by omega) hnode
  obtain ⟨new, s', hclone, hpool⟩ := clone_address_space_pool hpar
    (n := n + (S.card - ((List.range' 0 256).map fun i =>
      needAt s.mem 0 (table_get s.mem (pte_addr s.cr3) i)).sum)) (h.le (by omega))
  exact ⟨new, s', hclone, hpool.le (by omega)⟩

theorem PathsIn.translate_none {v : BitVec 64} (h : PathsIn s.mem r S) (hT : Tables s roots)
    (hr : r ∈ roots) (hv : UserHalf v) (hout : pathOf v 4 ∉ S) : translate s.mem r v = none := by
  rw [hT.translate_eq hr (pathOf_user hv 4), if_neg fun hpres => hout ?_]
  refine h _ (by simp [pathOf]) (pathOf_user hv 4) (by simp) ?_
  rw [node_pathOf_succ, child_of_small hpres (by omega)]
  simp

end Relis.Paging
