import Relis.Lists

/-!
# The nodes that a list call writes

A call writes its own node and nodes of the ring, and leaves every other word.
-/

open Relis.Code Relis.Dll Relis.Run

namespace Relis.Lists

variable {σ α : Type} [ListHeap σ α]

inductive Writes (P : α → Prop) (s : σ) : σ → Prop
  | refl : Writes P s s
  | next {s' : σ} {a : α} (v : Option α) : P a → Writes P s s' → Writes P s (set_next s' a v)
  | prev {s' : σ} {a : α} (v : Option α) : P a → Writes P s s' → Writes P s (set_prev s' a v)

variable {P : α → Prop} {s s' : σ} {h e : α} {L : List α}

theorem init_list_head_writes (s : σ) (hP : P h) : Writes P s (INIT_LIST_HEAD s h) :=
  .prev _ hP (.next _ hP .refl)

theorem ring_next_mem {a b : α} (hring : Ring (links s) h L) (ha : a ∈ h :: L)
    (hb : next s a = some b) : b ∈ h :: L := by
  obtain ⟨⟨c, hc, hnext, -⟩, -⟩ := hring.inverse ha
  rw [links_next, hb] at hnext
  cases hnext
  exact hc

theorem ring_prev_mem {a b : α} (hring : Ring (links s) h L) (ha : a ∈ h :: L)
    (hb : prev s a = some b) : b ∈ h :: L := by
  obtain ⟨-, c, hc, hprev, -⟩ := hring.inverse ha
  rw [links_prev, hb] at hprev
  cases hprev
  exact hc

theorem deref_ok {link : Option α} {a : α} (h : deref link = .ok a) : link = some a := by
  cases link with
  | none => cases h
  | some b =>
    cases h
    rfl

variable [LawfulListHeap σ]

theorem list_add_writes (hring : Ring (links s) h L) (hP : ∀ a ∈ e :: h :: L, P a)
    (hadd : list_add s e h = .ok s') : Writes P s s' := by
  classical
  have he : P e := hP e (by simp)
  have hh : P h := hP h (by simp)
  unfold list_add at hadd
  obtain ⟨after, hafter, hadd⟩ := bind_ok.mp hadd
  cases hadd
  have hnext : next s h = some after := by
    have hlink := deref_ok hafter
    rw [LawfulListHeap.next_set_prev, LawfulListHeap.next_set_next] at hlink
    split_ifs at hlink
    · exact hlink
    · exact hlink
  have hafter' : P after := hP after (List.mem_cons_of_mem _ (ring_next_mem hring (by simp) hnext))
  exact .next _ hh (.prev _ hafter' (.prev _ he (.next _ he .refl)))

theorem list_add_tail_writes (hring : Ring (links s) h L) (hP : ∀ a ∈ e :: h :: L, P a)
    (hadd : list_add_tail s e h = .ok s') : Writes P s s' := by
  classical
  have he : P e := hP e (by simp)
  have hh : P h := hP h (by simp)
  unfold list_add_tail at hadd
  obtain ⟨before, hbefore, hadd⟩ := bind_ok.mp hadd
  cases hadd
  have hprev : prev s h = some before := by
    have hlink := deref_ok hbefore
    rw [LawfulListHeap.prev_set_next, LawfulListHeap.prev_set_prev] at hlink
    split_ifs at hlink
    · exact hlink
    · exact hlink
  have hbefore' : P before := hP before (List.mem_cons_of_mem _ (ring_prev_mem hring (by simp) hprev))
  exact .prev _ hh (.next _ hbefore' (.next _ he (.prev _ he .refl)))

theorem list_del_writes (hring : Ring (links s) h L) (he : e ∈ L) (hP : ∀ a ∈ h :: L, P a)
    (hdel : list_del s e = .ok s') : Writes P s s' := by
  classical
  have hmem : e ∈ h :: L := List.mem_cons_of_mem _ he
  unfold list_del at hdel
  obtain ⟨before, hbefore, hdel⟩ := bind_ok.mp hdel
  obtain ⟨after, hafter, hdel⟩ := bind_ok.mp hdel
  cases hdel
  have hbefore' : P before := hP before (ring_prev_mem hring hmem (deref_ok hbefore))
  have hnext : next s e = some after := by
    have hlink := deref_ok hafter
    rw [LawfulListHeap.next_set_next] at hlink
    split_ifs at hlink
    · exact hlink
    · exact hlink
  have hafter' : P after := hP after (ring_next_mem hring hmem hnext)
  exact .prev _ (hP e hmem) (.next _ (hP e hmem) (.prev _ hafter' (.next _ hbefore' .refl)))

end Relis.Lists
