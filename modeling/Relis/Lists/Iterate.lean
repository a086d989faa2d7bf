import Relis.Lists

/-!
# A ring as a sequence

What the list functions do to the sequence of members, and the walk whose body may take the
current member out.
-/

open Relis.Code Relis.Dll

namespace Relis.Lists

variable {σ α : Type} [ListHeap σ α] {s s' : σ} {h n : α} {A B L K : List α}

/-! ## Iteration -/

/-- The body leaves the ring as it is or takes the current member out. It may write everything else. -/
def TakesCurrent (h : α) (body : σ → α → Except Halt σ) : Prop :=
  ∀ s A e B, Ring (links s) h (A ++ e :: B) →
    ∃ s', body s e = .ok s' ∧ (Ring (links s') h (A ++ e :: B) ∨ Ring (links s') h (A ++ B))

theorem next_rest (hring : Ring (links s) h (A ++ B)) :
    ∃ after, next s (B.headD h) = some after ∧ (B ≠ [] → after = B.tail.headD h) := by
  cases B with
  | nil =>
    rw [List.append_nil] at hring
    exact ⟨_, hring.next_head, fun hne => absurd rfl hne⟩
  | cons b B =>
    obtain ⟨y, z, P, Q, n⟩ := exists_neighbours h A B
    refine ⟨z, (hring.around n).2.1, fun _ => ?_⟩
    have hright := n.right
    cases B with
    | nil => exact (List.cons.inj hright).1.symm
    | cons c B => exact (List.cons.inj hright).1.symm

section

variable [DecidableEq α]

/-- `A` are the members that were visited and kept, `B` those to come. -/
theorem list_for_each_entry_safe_from_spec {body : σ → α → Except Halt σ}
    (hbody : TakesCurrent h body) (hring : Ring (links s) h (A ++ B)) :
    ∃ s' K, K.Sublist (A ++ B) ∧ Ring (links s') h K ∧
      ∀ fuel > B.length, ∀ n, (B ≠ [] → n = B.tail.headD h) →
      list_for_each_entry_safe_from h body fuel s (B.headD h) n = .ok (s', B) := by
  induction B generalizing A s with
  | nil =>
    refine ⟨s, A ++ [], List.Sublist.refl _, hring, fun fuel hfuel n _ => ?_⟩
    obtain ⟨fuel, rfl⟩ : ∃ k, fuel = k + 1 := ⟨fuel - 1, by omega⟩
    rw [list_for_each_entry_safe_from]
    exact if_pos rfl
  | cons e B ih =>
    have hne : e ≠ h := by
      rintro rfl
      exact (List.nodup_cons.mp hring.nodup).1 (by simp)
    obtain ⟨s1, hs1, hring1⟩ := hbody s A e B hring
    -- whether or not the body took `e` out, the ring is the members kept and those to come
    obtain ⟨A', hsub, hring1⟩ : ∃ A', (A' ++ B).Sublist (A ++ e :: B) ∧ Ring (links s1) h (A' ++ B) := by
      rcases hring1 with hkept | htaken
      · exact ⟨A ++ [e], by simp, by simpa using hkept⟩
      · exact ⟨A, by simp, htaken⟩
    obtain ⟨s', K, hK, hring', hrest⟩ := ih hring1
    obtain ⟨after, hafter, hafter_eq⟩ := next_rest hring1
    refine ⟨s', K, hK.trans hsub, hring', fun fuel hfuel n hn => ?_⟩
    obtain ⟨fuel, rfl⟩ : ∃ k, fuel = k + 1 := ⟨fuel - 1, by rw [List.length_cons] at hfuel; omega⟩
    have hrest := hrest fuel (by simpa using hfuel) after hafter_eq
    rw [hn (by simp), List.tail_cons, List.headD_cons, list_for_each_entry_safe_from, if_neg hne, hs1]
    change (deref (next s1 (B.headD h)) >>= _) = _
    rw [hafter]
    change (list_for_each_entry_safe_from h body fuel s1 (B.headD h) after >>= _) = _
    rw [hrest]
    rfl

theorem list_for_each_entry_safe_spec {body : σ → α → Except Halt σ} (hbody : TakesCurrent h body)
    (hring : Ring (links s) h L) :
    ∃ s' K, K.Sublist L ∧ Ring (links s') h K ∧
      ∀ fuel > L.length, list_for_each_entry_safe fuel s h body = .ok (s', L) := by
  obtain ⟨s', K, hK, hring', hwalk⟩ := list_for_each_entry_safe_from_spec (A := []) hbody hring
  obtain ⟨n, hn, hn_eq⟩ := next_rest (A := []) hring
  refine ⟨s', K, hK, hring', fun fuel hfuel => ?_⟩
  rw [list_for_each_entry_safe, ← links_next, hring.next_head]
  change (deref (next s (L.headD h)) >>= _) = _
  rw [hn]
  exact hwalk fuel hfuel n hn_eq

theorem takesCurrent_list_del [LawfulListHeap σ] (h : α) (taken : σ → α → Bool) :
    TakesCurrent h fun (s : σ) e => if taken s e then list_del s e else .ok s := by
  intro s A e B hring
  by_cases htaken : taken s e = true
  · obtain ⟨s', hs', hring', -⟩ := list_del_spec hring
    exact ⟨s', by simpa [htaken] using hs', .inr hring'⟩
  · exact ⟨s, by simp [htaken], .inl hring⟩

end

/-! ## The sequence -/

structure Edited (s s' : σ) (n h : α) (L K : List α) : Prop where
  ring : Ring (links s') h K
  inverse : ∀ a ∈ h :: K, (∃ b ∈ h :: K, next s' a = some b ∧ prev s' b = some a) ∧
    ∃ b ∈ h :: K, prev s' a = some b ∧ next s' b = some a
  others : ∀ g M, Ring (links s) g M → (∀ a ∈ g :: M, a ∉ n :: h :: L) →
    Ring (links s') g M ∧ ∀ a ∈ g :: M, SameLinks s s' a

theorem edited_of_frame (hring : Ring (links s') h K)
    (hframe : ∀ a, a ∉ n :: h :: L → SameLinks s s' a) : Edited s s' n h L K where
  ring := hring
  inverse _ ha := hring.inverse ha
  others _ _ hother hdisj :=
    have hsame := fun a ha => hframe a (hdisj a ha)
    ⟨ring_of_sameLinks hother hsame, hsame⟩

/-- For every heap of nodes and every ring in it. -/
theorem list_functions {σ α : Type} [ListHeap σ α] [LawfulListHeap σ] [DecidableEq α] {s : σ}
    {h : α} {L : List α} (hring : Ring (links s) h L) :
    (∀ n ∉ h :: L, ∃ s', list_add s n h = .ok s' ∧ Edited s s' n h L (n :: L)) ∧
      (∀ n ∉ h :: L, ∃ s', list_add_tail s n h = .ok s' ∧ Edited s s' n h L (L ++ [n])) ∧
      (∀ n ∈ L, ∃ s', list_del s n = .ok s' ∧ Edited s s' n h L (L.erase n) ∧ next s' n = none ∧
        prev s' n = none) ∧
      (list_empty s h = true ↔ L = []) ∧
      ∀ body : σ → α → Except Halt σ, TakesCurrent h body →
        ∃ s' K, K.Sublist L ∧ Ring (links s') h K ∧
          ∀ fuel > L.length, list_for_each_entry_safe fuel s h body = .ok (s', L) := by
  refine ⟨fun n hn => ?_, fun n hn => ?_, fun n hn => ?_, list_empty_spec hring, fun body hbody =>
    list_for_each_entry_safe_spec hbody hring⟩
  · obtain ⟨s', hs', hins⟩ := list_add_spec hring hn
    exact ⟨s', hs', edited_of_frame hins.ring hins.frame⟩
  · obtain ⟨s', hs', hins⟩ := list_add_tail_spec hring hn
    exact ⟨s', hs', edited_of_frame hins.ring hins.frame⟩
  · obtain ⟨A, B, rfl⟩ := List.append_of_mem hn
    have hnot : n ∉ A := fun hA => by
      have hnodup := (List.nodup_cons.mp hring.nodup).2
      exact (List.nodup_append.mp hnodup).2.2 n hA n (by simp) rfl
    obtain ⟨s', hs', hring', -, hnext, hprev, hframe⟩ := list_del_spec hring
    rw [List.erase_append_right _ hnot, List.erase_cons_head]
    refine ⟨s', hs', edited_of_frame hring' fun a ha => hframe a fun hmem => ha ?_, hnext, hprev⟩
    exact List.mem_cons_of_mem _ hmem

/-- A heap that has nothing but nodes. -/
instance [DecidableEq α] : ListHeap (Links α) α where
  next := Links.next
  prev := Links.prev
  set_next l a v := { l with next := Function.update l.next a v }
  set_prev l a v := { l with prev := Function.update l.prev a v }

instance [DecidableEq α] : LawfulListHeap (Links α) where
  next_set_next l a b v _ := by simp [next, set_next, Function.update_apply]
  prev_set_next _ _ _ _ := rfl
  next_set_prev _ _ _ _ := rfl
  prev_set_prev l a b v _ := by simp [prev, set_prev, Function.update_apply]

def threeNodes : Links Nat := ⟨fun n => [1, 2, 0][n]?, fun n => [2, 0, 1][n]?⟩

theorem threeNodes_emptied :
    (∃ l', list_add threeNodes 3 0 = .ok l' ∧ Edited threeNodes l' 3 0 [1, 2] [3, 1, 2]) ∧
      ∃ l', list_for_each_entry_safe 3 threeNodes 0
        (fun l e => if true then list_del l e else .ok l) =
        .ok (l', [1, 2]) := by
  have hring : Ring (links threeNodes) 0 [1, 2] :=
    ⟨by decide, by simp [Linked, links, threeNodes, next, prev]⟩
  obtain ⟨hadd, -, -, -, hsafe⟩ := list_functions hring
  obtain ⟨l', -, -, -, hwalk⟩ := hsafe _ (takesCurrent_list_del 0 fun _ _ => true)
  exact ⟨hadd 3 (by decide), l', hwalk 3 (by decide)⟩

end Relis.Lists
