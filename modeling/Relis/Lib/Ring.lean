import Mathlib.Data.List.Chain
import Mathlib.Data.List.Nodup
import Mathlib.Logic.Function.Basic

/-!
# Rings of links

A ring is a head and the list of its members in next order. A node is put between two
neighbours, or taken out.
-/

namespace Relis.Dll

structure Links (α : Type) where
  next : α → Option α
  prev : α → Option α

variable {α : Type}

def Linked (l : Links α) (a b : α) : Prop := l.next a = some b ∧ l.prev b = some a

/-- The members of the ring of `h` are `L`, without repetition. -/
structure Ring (l : Links α) (h : α) (L : List α) : Prop where
  nodup : (h :: L).Nodup
  chain : (h :: L ++ [h]).IsChain (Linked l)

variable {l l' : Links α} {h e y z : α} {A B L P Q : List α}

/-- A chain reads the next of all nodes but the last, and the prev of all but the first. -/
theorem chain_congr {c : List α} (hchain : c.IsChain (Linked l))
    (hnext : ∀ a ∈ c.dropLast, l'.next a = l.next a) (hprev : ∀ b ∈ c.tail, l'.prev b = l.prev b) :
    c.IsChain (Linked l') := by
  induction c with
  | nil => exact .nil
  | cons a c ih =>
    cases c with
    | nil => exact .singleton a
    | cons b c =>
      rw [List.isChain_cons_cons] at hchain ⊢
      obtain ⟨⟨h1, h2⟩, hchain⟩ := hchain
      refine ⟨⟨?_, ?_⟩, ih hchain ?_ ?_⟩
      · rw [hnext a (by simp), h1]
      · rw [hprev b (by simp), h2]
      · intro x hx
        exact hnext x (by rw [List.dropLast_cons_cons]; exact List.mem_cons_of_mem _ hx)
      · intro x hx
        exact hprev x (List.mem_cons_of_mem _ hx)

theorem Ring.congr (hring : Ring l h L) (hnext : ∀ a ∈ h :: L, l'.next a = l.next a)
    (hprev : ∀ a ∈ h :: L, l'.prev a = l.prev a) : Ring l' h L := by
  refine ⟨hring.nodup, chain_congr hring.chain ?_ ?_⟩
  · intro a ha
    rw [List.dropLast_concat] at ha
    exact hnext a ha
  · intro a ha
    rw [List.cons_append, List.tail_cons] at ha
    apply hprev
    simpa [or_comm] using ha

theorem Ring.next_head (hring : Ring l h L) : l.next h = some (L.headD h) := by
  have hchain := hring.chain
  cases L with
  | nil => exact (List.isChain_cons_cons.mp hchain).1.1
  | cons a L => exact (List.isChain_cons_cons.mp hchain).1.1

theorem chain_succ {R : α → α → Prop} {c : List α} {a : α} (hchain : c.IsChain R)
    (ha : a ∈ c.dropLast) : ∃ b ∈ c.tail, R a b := by
  induction c with
  | nil => simp at ha
  | cons x c ih =>
    cases c with
    | nil => simp at ha
    | cons y c =>
      rw [List.isChain_cons_cons] at hchain
      rw [List.dropLast_cons_cons, List.mem_cons] at ha
      rcases ha with rfl | ha
      · exact ⟨y, by simp, hchain.1⟩
      · obtain ⟨b, hb, hab⟩ := ih hchain.2 ha
        exact ⟨b, List.mem_of_mem_tail hb, hab⟩

theorem chain_pred {R : α → α → Prop} {c : List α} {b : α} (hchain : c.IsChain R) (hb : b ∈ c.tail) :
    ∃ a ∈ c.dropLast, R a b := by
  induction c with
  | nil => simp at hb
  | cons x c ih =>
    cases c with
    | nil => simp at hb
    | cons y c =>
      rw [List.isChain_cons_cons] at hchain
      rw [List.dropLast_cons_cons]
      rw [List.tail_cons, List.mem_cons] at hb
      rcases hb with rfl | hb
      · exact ⟨x, by simp, hchain.1⟩
      · obtain ⟨a, ha, hab⟩ := ih hchain.2 hb
        exact ⟨a, List.mem_cons_of_mem _ ha, hab⟩

theorem Ring.inverse {a : α} (hring : Ring l h L) (ha : a ∈ h :: L) :
    (∃ b ∈ h :: L, l.next a = some b ∧ l.prev b = some a) ∧ ∃ b ∈ h :: L, l.prev a = some b ∧
      l.next b = some a := by
  have htail : (h :: L ++ [h]).tail = L ++ [h] := rfl
  constructor
  · obtain ⟨b, hb, hab⟩ := chain_succ hring.chain (by rwa [List.dropLast_concat])
    refine ⟨b, ?_, hab⟩
    simpa [htail, or_comm] using hb
  · obtain ⟨b, hb, hba⟩ := chain_pred (b := a) hring.chain (by simpa [htail, or_comm] using ha)
    refine ⟨b, ?_, hba.2, hba.1⟩
    rwa [List.dropLast_concat] at hb

theorem Ring.unique {L' : List α} (h1 : Ring l h L) (h2 : Ring l h L') : L = L' := by
  have hwalk : ∀ (x : α) (L L' : List α), h ∉ L → h ∉ L' → (x :: L ++ [h]).IsChain (Linked l) →
      (x :: L' ++ [h]).IsChain (Linked l) → L = L' := by
    -- Both lists follow the next links from `x` up to the first `h`.
    intro x L
    induction L generalizing x with
    | nil =>
      intro L' _ hL' hc hc'
      cases L' with
      | nil => rfl
      | cons b L' =>
        have hb := (List.isChain_cons_cons.mp hc).1.1.symm.trans (List.isChain_cons_cons.mp hc').1.1
        cases hb
        exact absurd List.mem_cons_self hL'
    | cons a L ih =>
      intro L' hL hL' hc hc'
      cases L' with
      | nil =>
        have ha := (List.isChain_cons_cons.mp hc).1.1.symm.trans (List.isChain_cons_cons.mp hc').1.1
        cases ha
        exact absurd List.mem_cons_self hL
      | cons b L' =>
        have hab := (List.isChain_cons_cons.mp hc).1.1.symm.trans (List.isChain_cons_cons.mp hc').1.1
        cases hab
        rw [ih a L' (fun hm => hL (List.mem_cons_of_mem _ hm))
          (fun hm => hL' (List.mem_cons_of_mem _ hm)) hc.tail hc'.tail]
  exact hwalk h L L' (List.nodup_cons.mp h1.nodup).1 (List.nodup_cons.mp h2.nodup).1 h1.chain h2.chain

/-! ## Neighbours -/

structure Neighbours (h : α) (A B : List α) (y z : α) (P Q : List α) : Prop where
  left : h :: A = P ++ [y]
  right : B ++ [h] = z :: Q

theorem exists_neighbours (h : α) (A B : List α) : ∃ y z P Q, Neighbours h A B y z P Q := by
  have hA : h :: A ≠ [] := by simp
  have hB : B ++ [h] ≠ [] := by simp
  refine ⟨(h :: A).getLast hA, (B ++ [h]).head hB, (h :: A).dropLast, (B ++ [h]).tail, ?_, ?_⟩
  · exact (List.dropLast_append_getLast hA).symm
  · exact (List.cons_head_tail hB).symm

theorem Neighbours.y_mem (n : Neighbours h A B y z P Q) : y ∈ h :: A := by
  rw [n.left]
  simp

theorem Neighbours.z_mem (n : Neighbours h A B y z P Q) : z ∈ B ++ [h] := by
  rw [n.right]
  simp

theorem ring_iff (n : Neighbours h A B y z P Q) (hnodup : (h :: (A ++ B)).Nodup) :
    Ring l h (A ++ B) ↔ (h :: A).IsChain (Linked l) ∧ (B ++ [h]).IsChain (Linked l) ∧
      Linked l y z := by
  have happ : h :: (A ++ B) ++ [h] = (h :: A) ++ (B ++ [h]) := by simp
  have hy : (h :: A).getLast? = some y := by
    rw [n.left]
    simp
  have hz : (B ++ [h]).head? = some z := by
    rw [n.right]
    rfl
  constructor
  · intro hring
    have hchain := hring.chain
    rw [happ, List.isChain_append] at hchain
    obtain ⟨hl, hr, hlink⟩ := hchain
    exact ⟨hl, hr, hlink y hy z hz⟩
  · rintro ⟨hl, hr, hlink⟩
    refine ⟨hnodup, ?_⟩
    rw [happ, List.isChain_append]
    refine ⟨hl, hr, ?_⟩
    intro a ha b hb
    rw [hy] at ha
    rw [hz] at hb
    cases ha
    cases hb
    exact hlink

theorem sides_congr (n : Neighbours h A B y z P Q) (hnodup : (h :: (A ++ B)).Nodup)
    (hnext : ∀ a ∈ h :: (A ++ B), a ≠ y → l'.next a = l.next a)
    (hprev : ∀ a ∈ h :: (A ++ B), a ≠ z → l'.prev a = l.prev a)
    (hl : (h :: A).IsChain (Linked l)) (hr : (B ++ [h]).IsChain (Linked l)) :
    (h :: A).IsChain (Linked l') ∧ (B ++ [h]).IsChain (Linked l') := by
  have hleft : (h :: A).Nodup := hnodup.sublist (by simp)
  have hright : (B ++ [h]).Nodup := by
    have hB : (h :: B).Nodup := hnodup.sublist (by simp)
    rw [List.nodup_cons] at hB
    rw [List.nodup_append]
    refine ⟨hB.2, by simp, ?_⟩
    rintro a ha b hb rfl
    exact hB.1 (List.mem_singleton.mp hb ▸ ha)
  have hapart : ∀ a ∈ h :: A, ∀ b ∈ B, a ≠ b := by
    rintro a ha b hb rfl
    exact (List.nodup_append.mp (show ((h :: A) ++ B).Nodup from hnodup)).2.2 a ha a hb rfl
  refine ⟨chain_congr hl ?_ ?_, chain_congr hr ?_ ?_⟩
  · intro a ha
    rw [n.left, List.dropLast_concat] at ha
    rw [n.left] at hleft
    refine hnext a ?_ ?_
    · have : a ∈ h :: A := by rw [n.left]; exact List.mem_append_left _ ha
      exact List.mem_append_left B this
    · rintro rfl
      exact (List.nodup_append.mp hleft).2.2 a ha a (by simp) rfl
  · intro b hb
    rw [List.tail_cons] at hb
    refine hprev b (List.mem_cons_of_mem _ (List.mem_append_left _ hb)) ?_
    rintro rfl
    rcases List.mem_append.mp n.z_mem with hz | hz
    · exact hapart b (List.mem_cons_of_mem _ hb) b hz rfl
    · rw [List.mem_singleton] at hz
      rw [hz] at hb
      exact (List.nodup_cons.mp hleft).1 hb
  · intro a ha
    rw [List.dropLast_concat] at ha
    refine hnext a (List.mem_cons_of_mem _ (List.mem_append_right _ ha)) ?_
    rintro rfl
    exact hapart a n.y_mem a ha rfl
  · intro b hb
    have hmem : b ∈ B ++ [h] := List.mem_of_mem_tail hb
    rw [n.right, List.tail_cons] at hb
    rw [n.right] at hright
    refine hprev b
      (by simpa [or_comm, or_left_comm] using Or.inr (a := b ∈ A) (List.mem_append.mp hmem)) ?_
    rintro rfl
    exact (List.nodup_cons.mp hright).1 hb

/-! ## The two edits -/

theorem ring_perm : (h :: (A ++ e :: B)).Perm (e :: h :: (A ++ B)) :=
  ((@List.perm_middle _ e A B).cons h).trans (List.Perm.swap e h _)

theorem Ring.insert (hring : Ring l h (A ++ B)) (n : Neighbours h A B y z P Q)
    (he : e ∉ h :: (A ++ B)) (hye : Linked l' y e) (hez : Linked l' e z)
    (hnext : ∀ a, a ≠ y → a ≠ e → l'.next a = l.next a)
    (hprev : ∀ a, a ≠ z → a ≠ e → l'.prev a = l.prev a) : Ring l' h (A ++ e :: B) := by
  have hne : ∀ a ∈ h :: (A ++ B), a ≠ e := by
    rintro a ha rfl
    exact he ha
  obtain ⟨hl, hr, -⟩ := (ring_iff n hring.nodup).mp hring
  obtain ⟨hl, hr⟩ := sides_congr n hring.nodup (fun a ha hay => hnext a hay (hne a ha))
    (fun a ha haz => hprev a haz (hne a ha)) hl hr
  have n' : Neighbours h A (e :: B) y e P (B ++ [h]) := ⟨n.left, rfl⟩
  refine (ring_iff n' ?_).mpr ⟨hl, ?_, hye⟩
  · rw [ring_perm.nodup_iff, List.nodup_cons]
    exact ⟨he, hring.nodup⟩
  · rw [List.cons_append, n.right, List.isChain_cons_cons, ← n.right]
    exact ⟨hez, hr⟩

theorem Ring.around (hring : Ring l h (A ++ e :: B)) (n : Neighbours h A B y z P Q) :
    Linked l y e ∧ Linked l e z := by
  have n' : Neighbours h A (e :: B) y e P (B ++ [h]) := ⟨n.left, rfl⟩
  obtain ⟨-, hr, hye⟩ := (ring_iff n' hring.nodup).mp hring
  rw [List.cons_append, n.right, List.isChain_cons_cons] at hr
  exact ⟨hye, hr.1⟩

theorem Ring.remove (hring : Ring l h (A ++ e :: B)) (n : Neighbours h A B y z P Q)
    (hyz : Linked l' y z) (hnext : ∀ a, a ≠ y → a ≠ e → l'.next a = l.next a)
    (hprev : ∀ a, a ≠ z → a ≠ e → l'.prev a = l.prev a) : Ring l' h (A ++ B) := by
  have n' : Neighbours h A (e :: B) y e P (B ++ [h]) := ⟨n.left, rfl⟩
  obtain ⟨hl, hr, -⟩ := (ring_iff n' hring.nodup).mp hring
  have hnodup := ring_perm.nodup_iff.mp hring.nodup
  rw [List.nodup_cons] at hnodup
  have hne : ∀ a ∈ h :: (A ++ B), a ≠ e := by
    rintro a ha rfl
    exact hnodup.1 ha
  rw [List.cons_append, n.right, List.isChain_cons_cons, ← n.right] at hr
  obtain ⟨hl, hr⟩ := sides_congr n hnodup.2 (fun a ha hay => hnext a hay (hne a ha))
    (fun a ha haz => hprev a haz (hne a ha)) hl hr.2
  exact (ring_iff n hnodup.2).mpr ⟨hl, hr, hyz⟩

end Relis.Dll
