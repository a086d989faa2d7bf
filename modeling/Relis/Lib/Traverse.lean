import Mathlib.Data.Fintype.Card
import Mathlib.Data.List.Nodup
import Mathlib.Logic.Relation
import Mathlib.Order.WellFounded
import Mathlib.Order.RelClasses
import Mathlib.Tactic

/-!
# Depth-first traversal

The preorder lists an item before all that is behind it. A traversal with room for `cap`
items gives the first `cap` of them.
-/

namespace Relis.Traverse

open Relation

variable {α β : Type*} {items : β → List α} {next : α → Option β} {x y : α} {b c d root : β}
  {xs ys l l' : List α}

/-! ## The preorder -/

/-- `l` is the preorder of the items `xs` and of all that is behind them. -/
inductive PreorderOf (items : β → List α) (next : α → Option β) : List α → List α → Prop
  | nil : PreorderOf items next [] []
  | leaf {x : α} {xs l : List α} : next x = none → PreorderOf items next xs l →
      PreorderOf items next (x :: xs) (x :: l)
  | node {x : α} {b : β} {xs l1 l2 : List α} : next x = some b →
      PreorderOf items next (items b) l1 → PreorderOf items next xs l2 →
      PreorderOf items next (x :: xs) (x :: (l1 ++ l2))

def Child (items : β → List α) (next : α → Option β) (b c : β) : Prop :=
  ∃ x ∈ items b, next x = some c

def Reachable (items : β → List α) (next : α → Option β) (root : β) (x : α) : Prop :=
  ∃ b, ReflTransGen (Child items next) root b ∧ x ∈ items b

theorem reachable_iff : Reachable items next b y ↔
    y ∈ items b ∨ ∃ x ∈ items b, ∃ c, next x = some c ∧ Reachable items next c y := by
  constructor
  · rintro ⟨d, hd, hy⟩
    rcases ReflTransGen.cases_head hd with rfl | ⟨c, ⟨z, hz, hc⟩, hd⟩
    · exact .inl hy
    · exact .inr ⟨z, hz, c, hc, d, hd, hy⟩
  · rintro (hy | ⟨z, hz, c, hc, d, hd, hy⟩)
    · exact ⟨b, .refl, hy⟩
    · exact ⟨d, .head ⟨z, hz, hc⟩ hd, hy⟩

theorem PreorderOf.mem_iff (h : PreorderOf items next xs l) :
    y ∈ l ↔ y ∈ xs ∨ ∃ x ∈ xs, ∃ b, next x = some b ∧ Reachable items next b y := by
  induction h with
  | nil => simp
  | leaf hnext hxs ih => simp [ih, hnext, or_assoc]
  | node hnext hb hxs ihb ihxs =>
    simp [← reachable_iff.trans ihb.symm, ihxs, hnext, or_assoc, or_left_comm]

theorem PreorderOf.mem_iff_reachable (h : PreorderOf items next (items b) l) :
    y ∈ l ↔ Reachable items next b y := h.mem_iff.trans reachable_iff.symm

/-! ## Trees -/

/-- An item is in one place, and at most one reachable item leads to a place; none leads to the root. -/
structure Tree (items : β → List α) (next : α → Option β) (root : β) : Prop where
  nodup : ∀ b, (items b).Nodup
  place : ∀ x b c, x ∈ items b → x ∈ items c → b = c
  apart : ∀ x y b, Reachable items next root x → Reachable items next root y →
    next x = some b → next y = some b → x = y
  root : ∀ x, Reachable items next root x → next x ≠ some root

def Edge (items : β → List α) (next : α → Option β) (root b c : β) : Prop :=
  ReflTransGen (Child items next) root b ∧ Child items next b c

theorem edge_of_child (hb : ReflTransGen (Child items next) root b)
    (h : ReflTransGen (Child items next) b c) : ReflTransGen (Edge items next root) b c := by
  induction h with
  | refl => exact .refl
  | tail hbc hchild ih => exact ih.tail ⟨hb.trans hbc, hchild⟩

section

variable (tree : Tree items next root)

include tree

theorem Tree.parent_unique (hb : Edge items next root b d) (hc : Edge items next root c d) :
    b = c := by
  obtain ⟨hb, x, hx, hxd⟩ := hb
  obtain ⟨hc, y, hy, hyd⟩ := hc
  cases tree.apart x y d ⟨b, hb, hx⟩ ⟨c, hc, hy⟩ hxd hyd
  exact tree.place x b c hx hy

/-- A cycle could only be entered where it is left. -/
theorem Tree.acyclic : ¬TransGen (Edge items next root) b b := by
  intro hcycle
  have hb : ReflTransGen (Child items next) root b := by
    obtain ⟨c, ⟨hb, -⟩, -⟩ := TransGen.head'_iff.mp hcycle
    exact hb
  induction hb with
  | refl =>
    obtain ⟨c, -, hc, x, hx, hnext⟩ := TransGen.tail'_iff.mp hcycle
    exact tree.root x ⟨c, hc, hx⟩ hnext
  | @tail b c hb hchild ih =>
    obtain ⟨d, hd, hedge⟩ := TransGen.tail'_iff.mp hcycle
    cases tree.parent_unique hedge ⟨hb, hchild⟩
    exact ih (TransGen.head'_iff.mpr ⟨c, ⟨hb, hchild⟩, hd⟩)

theorem Tree.exists_preorder [Finite β] (hb : ReflTransGen (Child items next) root b) :
    ∃ l, PreorderOf items next (items b) l := by
  have hwf : WellFounded fun c b => TransGen (Edge items next root) b c := by
    have : Std.Irrefl fun c b => TransGen (Edge items next root) b c := ⟨fun b => tree.acyclic⟩
    have : IsTrans β fun c b => TransGen (Edge items next root) b c := ⟨fun _ _ _ h h' => h'.trans h⟩
    exact Finite.wellFounded_of_trans_of_irrefl _
  induction b using hwf.induction with
  | _ b ih =>
    -- the items of `b`, one after the other
    have hall : ∀ xs, xs ⊆ items b → ∃ l, PreorderOf items next xs l := by
      intro xs
      induction xs with
      | nil => exact fun _ => ⟨[], .nil⟩
      | cons x xs ihxs =>
        intro hsub
        obtain ⟨hx, hsub⟩ := List.cons_subset.mp hsub
        obtain ⟨l, hl⟩ := ihxs hsub
        cases hnext : next x with
        | none => exact ⟨_, .leaf hnext hl⟩
        | some c =>
          have hchild : Child items next b c := ⟨x, hx, hnext⟩
          obtain ⟨l1, hl1⟩ := ih c (.single ⟨hb, hchild⟩) (hb.tail hchild)
          exact ⟨_, .node hnext hl1 hl⟩
    exact hall _ (List.Subset.refl _)

theorem Tree.not_behind (hb : ReflTransGen (Child items next) root b) (hx : x ∈ items b)
    (hnext : next x = some c) (hy : y ∈ items b) : ¬Reachable items next c y := by
  rintro ⟨d, hd, hyd⟩
  have hchild : Child items next b c := ⟨x, hx, hnext⟩
  cases tree.place y d b hyd hy
  exact tree.acyclic (TransGen.head'_iff.mpr ⟨c, ⟨hb, hchild⟩, edge_of_child (hb.tail hchild) hd⟩)

theorem Tree.behind_disjoint (hb : ReflTransGen (Child items next) root b) {x' : α} (hx : x ∈ items b)
    (hx' : x' ∈ items b) (hne : x ≠ x') (hnext : next x = some c) (hnext' : next x' = some d) :
    ¬(Reachable items next c y ∧ Reachable items next d y) := by
  rintro ⟨⟨e, hce, hye⟩, ⟨e', hde, hye'⟩⟩
  cases tree.place y e e' hye hye'
  have hbc : Edge items next root b c := ⟨hb, x, hx, hnext⟩
  have hbd : Edge items next root b d := ⟨hb, x', hx', hnext'⟩
  have hcd : c ≠ d := by
    rintro rfl
    exact hne (tree.apart x x' c ⟨b, hb, hx⟩ ⟨b, hb, hx'⟩ hnext hnext')
  -- One of the two is behind the other, but only by way of `b`.
  have hcycle : ∀ {c d}, Edge items next root b c → Edge items next root b d → c ≠ d →
      ¬ReflTransGen (Edge items next root) c d := by
    intro c d hc hd hcd h
    rcases ReflTransGen.cases_tail h with rfl | ⟨z, hcz, hzd⟩
    · exact hcd rfl
    · cases tree.parent_unique hzd hd
      exact tree.acyclic (TransGen.head'_iff.mpr ⟨c, hc, hcz⟩)
  have hunique : Relator.RightUnique (Function.swap (Edge items next root)) :=
    fun _ _ _ h h' => tree.parent_unique h h'
  have hc := edge_of_child (hb.tail hbc.2) hce
  have hd := edge_of_child (hb.tail hbd.2) hde
  rcases ReflTransGen.total_of_right_unique hunique hc.swap hd.swap with h | h
  · exact hcycle hbd hbc hcd.symm (reflTransGen_swap.mp h)
  · exact hcycle hbc hbd hcd (reflTransGen_swap.mp h)

theorem Tree.notMem_preorder (hb : ReflTransGen (Child items next) root b)
    (h : PreorderOf items next xs l) (hsub : xs ⊆ items b) (hx : x ∈ items b) (hnot : x ∉ xs) :
    x ∉ l := by
  rw [h.mem_iff]
  rintro (hmem | ⟨y, hy, c, hnext, hreach⟩)
  · exact hnot hmem
  · exact tree.not_behind hb (hsub hy) hnext hx hreach

theorem Tree.preorder_nodup_of_subset (h : PreorderOf items next xs l)
    (hb : ReflTransGen (Child items next) root b) (hsub : xs ⊆ items b) (hxs : xs.Nodup) :
    l.Nodup := by
  induction h generalizing b with
  | nil => exact List.nodup_nil
  | leaf hnext hl ih =>
    obtain ⟨hx, hsub⟩ := List.cons_subset.mp hsub
    obtain ⟨hnot, hxs⟩ := List.nodup_cons.mp hxs
    exact List.nodup_cons.mpr ⟨tree.notMem_preorder hb hl hsub hx hnot, ih hb hsub hxs⟩
  | @node x c xs l1 l2 hnext hl1 hl2 ih1 ih2 =>
    obtain ⟨hx, hsub⟩ := List.cons_subset.mp hsub
    obtain ⟨hnot, hxs⟩ := List.nodup_cons.mp hxs
    have hnodup1 : l1.Nodup := ih1 (hb.tail ⟨x, hx, hnext⟩) (List.Subset.refl _) (tree.nodup c)
    refine List.nodup_cons.mpr ⟨?_, hnodup1.append (ih2 hb hsub hxs) ?_⟩
    · rw [List.mem_append, hl1.mem_iff_reachable]
      rintro (hreach | hmem)
      · exact tree.not_behind hb hx hnext hx hreach
      · exact tree.notMem_preorder hb hl2 hsub hx hnot hmem
    · intro y hy1 hy2
      rw [hl1.mem_iff_reachable] at hy1
      rcases hl2.mem_iff.mp hy2 with hy | ⟨x', hx', d, hnext', hy⟩
      · exact tree.not_behind hb hx hnext (hsub hy) hy1
      · have hne : x ≠ x' := by
          rintro rfl
          exact hnot hx'
        exact tree.behind_disjoint hb hx (hsub hx') hne hnext hnext' ⟨hy1, hy⟩

theorem Tree.preorder_nodup (h : PreorderOf items next (items root) l) : l.Nodup :=
  tree.preorder_nodup_of_subset h .refl (List.Subset.refl _) (tree.nodup root)

end

/-! ## With room for so many -/

/-- What a traversal of `xs` makes of a list with room for `cap` items. -/
inductive Fills (items : β → List α) (next : α → Option β) (cap : Nat) : List α → List α → List α → Prop
  | nil {l : List α} : Fills items next cap [] l l
  | full {x : α} {xs l l' : List α} : cap ≤ l.length → Fills items next cap xs l l' →
      Fills items next cap (x :: xs) l l'
  | leaf {x : α} {xs l l' : List α} : l.length < cap → next x = none →
      Fills items next cap xs (l ++ [x]) l' → Fills items next cap (x :: xs) l l'
  | node {x : α} {b : β} {xs l l1 l' : List α} : l.length < cap → next x = some b →
      Fills items next cap (items b) (l ++ [x]) l1 → Fills items next cap xs l1 l' →
      Fills items next cap (x :: xs) l l'

variable {cap : Nat} {l1 l2 : List α}

theorem Fills.append (h : Fills items next cap xs l l1) (h' : Fills items next cap ys l1 l2) :
    Fills items next cap (xs ++ ys) l l2 := by
  induction h with
  | nil => exact h'
  | full hfull _ ih => exact .full hfull (ih h')
  | leaf hroom hnext _ ih => exact .leaf hroom hnext (ih h')
  | node hroom hnext hb _ _ ih => exact .node hroom hnext hb (ih h')

theorem Fills.eq_take (h : Fills items next cap xs l l') {p : List α}
    (hp : PreorderOf items next xs p) : l' = l ++ p.take (cap - l.length) := by
  induction h generalizing p with
  | nil =>
    cases hp
    simp
  | full hfull _ ih =>
    have hzero : ∀ q : List α, q.take (cap - _) = [] :=
      fun q => by rw [Nat.sub_eq_zero_of_le hfull, List.take_zero]
    cases hp with
    | leaf _ hl => rw [ih hl, hzero, hzero]
    | node _ _ hl => rw [ih hl, hzero, hzero]
  | @leaf x xs l l' hroom hnext _ ih =>
    cases hp with
    | leaf _ hl =>
      obtain ⟨m, hm⟩ : ∃ m, cap - l.length = m + 1 := ⟨cap - l.length - 1, by omega⟩
      rw [ih hl, hm, List.take_succ_cons, List.length_append, List.length_singleton, List.append_assoc,
        show cap - (l.length + 1) = m by omega]
      rfl
    | node hnext' => cases hnext.symm.trans hnext'
  | @node x b xs l l1 l' hroom hnext _ _ ih1 ih =>
    cases hp with
    | leaf hnext' => cases hnext.symm.trans hnext'
    | @node _ _ _ p1 p2 hnext' hb hl =>
      cases hnext.symm.trans hnext'
      obtain ⟨m, hm⟩ : ∃ m, cap - l.length = m + 1 := ⟨cap - l.length - 1, by omega⟩
      have h1 := ih1 hb
      rw [List.length_append, List.length_singleton, show cap - (l.length + 1) = m by omega,
        List.append_assoc] at h1
      have hlen : cap - l1.length = m - p1.length := by
        rw [h1]
        simp only [List.length_append, List.length_singleton, List.length_take]
        omega
      rw [ih hl, hlen, h1, hm, List.take_succ_cons, List.take_append, List.append_assoc,
        List.append_assoc]
      rfl

end Relis.Traverse
