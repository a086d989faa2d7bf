import Relis.Code.List
import Relis.Lib.Ring
import Relis.Lib.Run

/-!
# The list functions on rings

The state is any one whose links can be read and written one by one.
-/

open Relis.Code Relis.Dll Relis.Run

namespace Relis.Lists

class LawfulListHeap (σ : Type) {α : Type} [ListHeap σ α] : Prop where
  next_set_next : ∀ (s : σ) (a b : α) (v : Option α) [Decidable (b = a)],
    next (set_next s a v) b = if b = a then v else next s b
  prev_set_next : ∀ (s : σ) (a b : α) (v : Option α), prev (set_next s a v) b = prev s b
  next_set_prev : ∀ (s : σ) (a b : α) (v : Option α), next (set_prev s a v) b = next s b
  prev_set_prev : ∀ (s : σ) (a b : α) (v : Option α) [Decidable (b = a)],
    prev (set_prev s a v) b = if b = a then v else prev s b

variable {σ α β : Type} [ListHeap σ α]

def links (s : σ) : Links α := ⟨next s, prev s⟩

@[simp] theorem links_next (s : σ) (a : α) : (links s).next a = next s a := rfl

@[simp] theorem links_prev (s : σ) (a : α) : (links s).prev a = prev s a := rfl

inductive Relinks (s : σ) : σ → Prop
  | refl : Relinks s s
  | next {s' : σ} (a : α) (v : Option α) : Relinks s s' → Relinks s (set_next s' a v)
  | prev {s' : σ} (a : α) (v : Option α) : Relinks s s' → Relinks s (set_prev s' a v)

def SameLinks (s s' : σ) (a : α) : Prop := next s' a = next s a ∧ prev s' a = prev s a

theorem ring_of_sameLinks {s s' : σ} {h : α} {L : List α} (hring : Ring (links s) h L)
    (hsame : ∀ a ∈ h :: L, SameLinks s s' a) : Ring (links s') h L :=
  hring.congr (fun a ha => (hsame a ha).1) fun a ha => (hsame a ha).2

variable [DecidableEq α] {s : σ} {h e : α} {L A B : List α}

/-! ## Reading -/

theorem list_empty_spec (hring : Ring (links s) h L) : list_empty s h = true ↔ L = [] := by
  unfold list_empty
  rw [beq_iff_eq, ← links_next, hring.next_head, Option.some.injEq]
  constructor
  · intro hhead
    cases L with
    | nil => rfl
    | cons a L =>
      rw [List.headD_cons] at hhead
      subst hhead
      exact absurd List.mem_cons_self (List.nodup_cons.mp hring.nodup).1
  · rintro rfl
    rfl

theorem list_for_each_from_spec {fuel : Nat} {body : α → Except Halt (Option β)} (f : α → Option β)
    (hfuel : L.length < fuel) (hnodup : (h :: L).Nodup)
    (hchain : (L ++ [h]).IsChain (Linked (links s))) (hbody : ∀ a ∈ L, body a = .ok (f a)) :
    list_for_each_from s h body fuel (L.headD h) = .ok (L.findSome? f) := by
  induction L generalizing fuel with
  | nil =>
    obtain ⟨fuel, rfl⟩ := Nat.exists_eq_add_of_lt hfuel
    simp [list_for_each_from]
  | cons a L ih =>
    obtain ⟨fuel, rfl⟩ : ∃ n, fuel = n + 1 := ⟨fuel - 1, by omega⟩
    have hne : a ≠ h := by
      rintro rfl
      exact (List.nodup_cons.mp hnodup).1 List.mem_cons_self
    have hnext : next s a = some (L.headD h) := by
      cases L with
      | nil => exact (List.isChain_cons_cons.mp hchain).1.1
      | cons b L => exact (List.isChain_cons_cons.mp hchain).1.1
    rw [list_for_each_from, List.headD_cons, if_neg hne, hbody a List.mem_cons_self]
    cases hf : f a with
    | some b => simp [bind, Except.bind, pure, Except.pure, hf]
    | none =>
      have hrest := ih (by simpa using hfuel) (hnodup.sublist (by simp)) hchain.tail
        fun b hb => hbody b (List.mem_cons_of_mem _ hb)
      simpa [bind, Except.bind, hf, hnext, deref] using hrest

theorem list_for_each_spec {fuel : Nat} {body : α → Except Halt (Option β)} (f : α → Option β)
    (hring : Ring (links s) h L) (hfuel : L.length < fuel) (hbody : ∀ a ∈ L, body a = .ok (f a)) :
    list_for_each fuel s h body = .ok (L.findSome? f) := by
  unfold list_for_each
  rw [← links_next, hring.next_head]
  exact list_for_each_from_spec f hfuel hring.nodup hring.chain.tail hbody

theorem list_for_each_find {γ : Type} {fuel : Nat} {body : α → Except Halt (Option β)} {cs : List γ}
    {node : γ → α} (g : γ → β) (P : γ → Prop) [DecidablePred P]
    (hring : Ring (links s) h (cs.map node)) (hfuel : cs.length < fuel)
    (hbody : ∀ c ∈ cs, body (node c) = .ok (if P c then some (g c) else none)) :
    list_for_each fuel s h body = .ok ((cs.find? P).map g) := by
  rw [list_for_each_spec (fun a => (body a).toOption.join) hring (by simpa using hfuel),
    List.findSome?_map]
  · clear hring hfuel
    induction cs with
    | nil => rfl
    | cons c cs ih =>
      rw [List.findSome?_cons, Function.comp_apply, hbody c List.mem_cons_self, List.find?_cons]
      by_cases hc : P c
      · simp [hc, Except.toOption]
      · simpa [hc, Except.toOption] using ih fun b hb => hbody b (List.mem_cons_of_mem _ hb)
  · intro a ha
    obtain ⟨c, hc, rfl⟩ := List.mem_map.mp ha
    rw [hbody c hc]
    rfl

/-! ## Writing -/

variable [LawfulListHeap σ]

attribute [simp] LawfulListHeap.next_set_next LawfulListHeap.prev_set_next
  LawfulListHeap.next_set_prev LawfulListHeap.prev_set_prev

theorem init_list_head_spec (s : σ) (h : α) :
    Ring (links (INIT_LIST_HEAD s h)) h [] ∧ Relinks s (INIT_LIST_HEAD s h) ∧
      ∀ a, a ≠ h → SameLinks s (INIT_LIST_HEAD s h) a := by
  refine ⟨⟨by simp, ?_⟩, .prev _ _ (.next _ _ .refl), ?_⟩
  · simp [INIT_LIST_HEAD, Linked]
  · intro a ha
    simp [INIT_LIST_HEAD, SameLinks, ha]

theorem init_list_head_other {g : α} (hring : Ring (links s) g L) (hnot : h ∉ g :: L) :
    Ring (links (INIT_LIST_HEAD s h)) g L := by
  refine ring_of_sameLinks hring ?_
  intro a ha
  refine (init_list_head_spec s h).2.2 a ?_
  rintro rfl
  exact hnot ha

structure Inserted (s s' : σ) (h e : α) (L L' : List α) : Prop where
  ring : Ring (links s') h L'
  relinks : Relinks s s'
  frame : ∀ a, a ∉ e :: h :: L → SameLinks s s' a

theorem list_add_spec (hring : Ring (links s) h L) (he : e ∉ h :: L) :
    ∃ s', list_add s e h = .ok s' ∧ Inserted s s' h e L (e :: L) := by
  obtain ⟨y, z, P, Q, n⟩ := exists_neighbours h [] L
  have hy : y = h := by simpa using n.y_mem
  subst hy
  obtain ⟨-, -, hnext, -⟩ := (ring_iff n hring.nodup).mp hring
  have hz := n.z_mem
  have hez : e ≠ z := by
    rintro rfl
    exact he (by simpa [or_comm] using hz)
  have hye : y ≠ e := by
    rintro rfl
    exact he List.mem_cons_self
  rw [links_next] at hnext
  let s3 := set_prev (set_prev (set_next s e (some z)) e (some y)) z (some e)
  refine ⟨set_next s3 y (some e), ?_, ?_, ?_, ?_⟩
  · simp [list_add, hnext, hye, deref, s3, bind, Except.bind, pure, Except.pure]
  · refine hring.insert n he ?_ ?_ ?_ ?_
    · simp [Linked, s3, hez]
    · simp [Linked, s3, hye.symm]
    · intro a hay hae
      simp [s3, hay, hae]
    · intro a haz hae
      simp [s3, haz, hae]
  · exact .next _ _ (.prev _ _ (.prev _ _ (.next _ _ .refl)))
  · intro a ha
    have haz : a ≠ z := by
      rintro rfl
      exact ha (by simpa [or_comm] using Or.inr hz)
    simp only [List.mem_cons, not_or] at ha
    simp [SameLinks, s3, ha.1, ha.2.1, haz]

theorem list_add_tail_spec (hring : Ring (links s) h L) (he : e ∉ h :: L) :
    ∃ s', list_add_tail s e h = .ok s' ∧ Inserted s s' h e L (L ++ [e]) := by
  obtain ⟨y, z, P, Q, n⟩ := exists_neighbours h L []
  have hz : z = h := by simpa using n.z_mem
  subst hz
  have hring' : Ring (links s) z (L ++ []) := by rwa [List.append_nil]
  obtain ⟨-, -, -, hprev⟩ := (ring_iff n hring'.nodup).mp hring'
  have hy := n.y_mem
  have hye : y ≠ e := by
    rintro rfl
    exact he hy
  have hze : z ≠ e := by
    rintro rfl
    exact he List.mem_cons_self
  rw [links_prev] at hprev
  let s3 := set_next (set_next (set_prev s e (some y)) e (some z)) y (some e)
  refine ⟨set_prev s3 z (some e), ?_, ?_, ?_, ?_⟩
  · simp [list_add_tail, hprev, hze, deref, s3, bind, Except.bind, pure, Except.pure]
  · refine hring'.insert n (by rwa [List.append_nil]) ?_ ?_ ?_ ?_
    · simp [Linked, s3, hze.symm]
    · simp [Linked, s3, hye.symm]
    · intro a hay hae
      simp [s3, hay, hae]
    · intro a haz hae
      simp [s3, haz, hae]
  · exact .prev _ _ (.next _ _ (.next _ _ (.prev _ _ .refl)))
  · intro a ha
    have hay : a ≠ y := by
      rintro rfl
      exact ha (List.mem_cons_of_mem _ hy)
    simp only [List.mem_cons, not_or] at ha
    simp [SameLinks, s3, ha.1, ha.2.1, hay]

theorem list_del_spec (hring : Ring (links s) h (A ++ e :: B)) :
    ∃ s', list_del s e = .ok s' ∧ Ring (links s') h (A ++ B) ∧ Relinks s s' ∧
      next s' e = none ∧ prev s' e = none ∧
      ∀ a, a ∉ h :: (A ++ e :: B) → SameLinks s s' a := by
  obtain ⟨y, z, P, Q, n⟩ := exists_neighbours h A B
  obtain ⟨⟨-, hprev⟩, ⟨hnext, -⟩⟩ := hring.around n
  rw [links_prev] at hprev
  rw [links_next] at hnext
  have hperm : (h :: (A ++ e :: B)).Perm (e :: h :: (A ++ B)) := ring_perm
  have hnodup := hperm.nodup_iff.mp hring.nodup
  have hye : y ≠ e := by
    rintro rfl
    refine (List.nodup_cons.mp hnodup).1 ?_
    exact List.mem_append_left B n.y_mem
  have hze : z ≠ e := by
    rintro rfl
    refine (List.nodup_cons.mp hnodup).1 ?_
    have hz := n.z_mem
    simp only [List.mem_append, List.mem_cons, List.not_mem_nil, or_false] at hz ⊢
    tauto
  let s2 := set_prev (set_next s y (some z)) z (some y)
  refine ⟨set_prev (set_next s2 e none) e none, ?_, ?_, ?_, ?_, ?_, ?_⟩
  · simp [list_del, hprev, hnext, hye.symm, deref, s2, bind, Except.bind, pure, Except.pure]
  · refine hring.remove n ?_ ?_ ?_
    · simp [Linked, s2, hye, hze]
    · intro a hay hae
      simp [s2, hay, hae]
    · intro a haz hae
      simp [s2, haz, hae]
  · exact .prev _ _ (.next _ _ (.prev _ _ (.next _ _ .refl)))
  · simp [s2]
  · simp [s2]
  · intro a ha
    have hy := n.y_mem
    have hz := n.z_mem
    have hay : a ≠ y := by
      rintro rfl
      exact ha (by simp at hy ⊢; tauto)
    have haz : a ≠ z := by
      rintro rfl
      exact ha (by simp at hz ⊢; tauto)
    have hae : a ≠ e := by
      rintro rfl
      exact ha (by simp)
    simp [SameLinks, s2, hay, haz, hae]

/-! ## Where links lead, without a ring -/

def LinksIn (P : α → Prop) (s : σ) : Prop := ∀ a b, next s a = some b ∨ prev s a = some b → P b

variable {P : α → Prop} {s' : σ}

theorem LinksIn.set_next (hin : LinksIn P s) (a : α) (v : Option α) (hv : ∀ b ∈ v, P b) :
    LinksIn P (set_next s a v) := by
  intro c b hb
  rw [LawfulListHeap.next_set_next, LawfulListHeap.prev_set_next] at hb
  rcases hb with hb | hb
  · split_ifs at hb
    · exact hv b hb
    · exact hin c b (.inl hb)
  · exact hin c b (.inr hb)

theorem LinksIn.set_prev (hin : LinksIn P s) (a : α) (v : Option α) (hv : ∀ b ∈ v, P b) :
    LinksIn P (set_prev s a v) := by
  intro c b hb
  rw [LawfulListHeap.next_set_prev, LawfulListHeap.prev_set_prev] at hb
  rcases hb with hb | hb
  · exact hin c b (.inl hb)
  · split_ifs at hb
    · exact hv b hb
    · exact hin c b (.inr hb)

theorem init_list_head_links (hin : LinksIn P s) (hh : P h) : LinksIn P (INIT_LIST_HEAD s h) :=
  (hin.set_next h (some h) (by simpa using hh)).set_prev h (some h) (by simpa using hh)

theorem list_add_links (hin : LinksIn P s) (he : P e) (hh : P h) (hadd : list_add s e h = .ok s') :
    LinksIn P s' ∧ Relinks s s' := by
  unfold list_add at hadd
  obtain ⟨after, -, hadd⟩ := bind_ok.mp hadd
  cases hadd
  have h1 := hin.set_next e (next s h) fun b hb => hin h b (.inl hb)
  have h2 := h1.set_prev e (some h) (by simpa using hh)
  have h3 := h2.set_prev after (some e) (by simpa using he)
  exact ⟨h3.set_next h (some e) (by simpa using he), .next _ _ (.prev _ _ (.prev _ _ (.next _ _ .refl)))⟩

theorem list_add_tail_links (hin : LinksIn P s) (he : P e) (hh : P h)
    (hadd : list_add_tail s e h = .ok s') : LinksIn P s' ∧ Relinks s s' := by
  unfold list_add_tail at hadd
  obtain ⟨before, -, hadd⟩ := bind_ok.mp hadd
  cases hadd
  have h1 := hin.set_prev e (prev s h) fun b hb => hin h b (.inr hb)
  have h2 := h1.set_next e (some h) (by simpa using hh)
  have h3 := h2.set_next before (some e) (by simpa using he)
  exact ⟨h3.set_prev h (some e) (by simpa using he), .prev _ _ (.next _ _ (.next _ _ (.prev _ _ .refl)))⟩

theorem list_del_links (hin : LinksIn P s) (hdel : list_del s e = .ok s') :
    LinksIn P s' ∧ Relinks s s' := by
  unfold list_del at hdel
  obtain ⟨before, -, hdel⟩ := bind_ok.mp hdel
  obtain ⟨after, -, hdel⟩ := bind_ok.mp hdel
  cases hdel
  have h1 := hin.set_next before (next s e) fun b hb => hin e b (.inl hb)
  have h2 := h1.set_prev after _ fun b hb => h1 e b (.inr hb)
  exact ⟨(h2.set_next e none (by simp)).set_prev e none (by simp),
    .prev _ _ (.next _ _ (.prev _ _ (.next _ _ .refl)))⟩

end Relis.Lists
