import Mathlib.Data.List.Infix
import Mathlib.Data.Set.Basic

/-!
# Tables of tables

A radix tree in a heap. A table `t` has an entry `get t i` for each index `i`,
and `child d e` is the table that an entry `e` at depth `d` leads to. A path is
the list of indices from the root on.
-/

namespace Relis.Radix

variable {T I E : Type} (child : Nat → E → Option T) (get get' : T → I → E)

def node : Nat → T → List I → Option T
  | _, t, [] => some t
  | d, t, i :: p => (child d (get t i)).bind fun t' => node (d + 1) t' p

def slot (z : E) (d : Nat) (t : T) (p : List I) (i : I) : E :=
  match node child get d t p with
  | some t' => get t' i
  | none => z

variable {child get get'}

@[simp] theorem node_nil (d : Nat) (t : T) : node child get d t [] = some t := rfl

theorem node_append (d : Nat) (t : T) (p q : List I) :
    node child get d t (p ++ q) =
      (node child get d t p).bind fun t' => node child get (d + p.length) t' q := by
  induction p generalizing d t with
  | nil => rfl
  | cons i p ih =>
    rw [List.cons_append, node, node, Option.bind_assoc]
    congr 1
    funext t'
    rw [ih, List.length_cons, show d + 1 + p.length = d + (p.length + 1) by omega]

theorem node_snoc (d : Nat) (t : T) (p : List I) (i : I) :
    node child get d t (p ++ [i]) =
      (node child get d t p).bind fun t' => child (d + p.length) (get t' i) := by
  rw [node_append]
  simp [node]

theorem slot_of_node {z : E} {d : Nat} {t t' : T} {p : List I} (h : node child get d t p = some t')
    (i : I) : slot child get z d t p i = get t' i := by
  unfold slot
  rw [h]

theorem node_congr {d : Nat} {t : T} {p : List I}
    (h : ∀ q i t', q ++ [i] <+: p → node child get d t q = some t' →
      child (d + q.length) (get' t' i) = child (d + q.length) (get t' i)) :
    node child get' d t p = node child get d t p := by
  induction p using List.reverseRecOn with
  | nil => rfl
  | append_singleton p i ih =>
    rw [node_snoc, node_snoc, ih (fun q j t' hq => h q j t' (hq.trans (List.prefix_append p [i])))]
    cases hp : node child get d t p with
    | none => rfl
    | some t' => exact h p i t' (List.prefix_refl _) hp

/-! ## Forests -/

def Unshared (child : Nat → E → Option T) (get : T → I → E) (valid : List I → Prop) (n : Nat)
    (roots : Set T) : Prop :=
  ∀ r ∈ roots, ∀ r' ∈ roots, ∀ p q t, valid p → valid q → p.length ≤ n → q.length ≤ n →
    node child get 0 r p = some t → node child get 0 r' q = some t → r = r' ∧ p = q

def AgreeOff (child : Nat → E → Option T) (get get' : T → I → E) (valid : List I → Prop) (n : Nat)
    (roots : Set T) (t0 : T) (i0 : I) : Prop :=
  ∀ r ∈ roots, ∀ p i t, valid (p ++ [i]) → p.length ≤ n → node child get 0 r p = some t →
    ¬ (t = t0 ∧ i = i0) → get' t i = get t i

variable {valid : List I → Prop} {n : Nat} {roots : Set T} {r0 t0 : T} {p0 : List I} {i0 : I}

theorem node_off_write (hvalid : ∀ p q, p <+: q → valid q → valid p)
    (hshare : Unshared child get valid n roots) (hoff : AgreeOff child get get' valid n roots t0 i0)
    (hr0 : r0 ∈ roots) (hp0 : valid p0) (hn0 : p0.length ≤ n) (ht0 : node child get 0 r0 p0 = some t0)
    {r : T} (hr : r ∈ roots) {p : List I} (hp : valid p) (hn : p.length ≤ n + 1)
    (hbelow : ¬ (r = r0 ∧ p0 ++ [i0] <+: p)) :
    node child get' 0 r p = node child get 0 r p := by
  apply node_congr
  intro q i t hq ht
  have hlen := hq.length_le
  simp only [List.length_append, List.length_singleton] at hlen
  have hqi := hvalid _ _ hq hp
  rw [hoff r hr q i t hqi (by omega) ht]
  rintro ⟨rfl, rfl⟩
  obtain ⟨rfl, rfl⟩ := hshare r hr r0 hr0 q p0 t (hvalid _ _ (List.prefix_append q [i]) hqi) hp0
    (by omega) hn0 ht ht0
  exact hbelow ⟨rfl, hq⟩

theorem node_same_child (hvalid : ∀ p q, p <+: q → valid q → valid p)
    (hshare : Unshared child get valid n roots) (hoff : AgreeOff child get get' valid n roots t0 i0)
    (hr0 : r0 ∈ roots) (hp0 : valid p0) (hn0 : p0.length ≤ n) (ht0 : node child get 0 r0 p0 = some t0)
    (hchild : child p0.length (get' t0 i0) = child p0.length (get t0 i0))
    {r : T} (hr : r ∈ roots) {p : List I} (hp : valid p) (hn : p.length ≤ n + 1) :
    node child get' 0 r p = node child get 0 r p := by
  apply node_congr
  intro q i t hq ht
  have hlen := hq.length_le
  simp only [List.length_append, List.length_singleton] at hlen
  have hqi := hvalid _ _ hq hp
  by_cases hhere : t = t0 ∧ i = i0
  · obtain ⟨rfl, rfl⟩ := hhere
    obtain ⟨rfl, rfl⟩ := hshare r hr r0 hr0 q p0 t (hvalid _ _ (List.prefix_append q [i]) hqi) hp0
      (by omega) hn0 ht ht0
    simpa using hchild
  · rw [hoff r hr q i t hqi (by omega) ht hhere]

theorem node_grow (hvalid : ∀ p q, p <+: q → valid q → valid p)
    (hshare : Unshared child get valid n roots) (hoff : AgreeOff child get get' valid n roots t0 i0)
    (hr0 : r0 ∈ roots) (hp0 : valid p0) (hn0 : p0.length ≤ n)
    (ht0 : node child get 0 r0 p0 = some t0) {f : T} (hempty : child p0.length (get t0 i0) = none)
    (hnew : child p0.length (get' t0 i0) = some f)
    (hleaf : ∀ i, valid (p0 ++ [i0] ++ [i]) → child (p0.length + 1) (get' f i) = none)
    [DecidableEq T] [DecidableEq I] {r : T} (hr : r ∈ roots) {p : List I} (hp : valid p)
    (hn : p.length ≤ n + 1) :
    node child get' 0 r p = if r = r0 ∧ p = p0 ++ [i0] then some f else node child get 0 r p := by
  by_cases hbelow : r = r0 ∧ p0 ++ [i0] <+: p
  · obtain ⟨rfl, q, rfl⟩ := hbelow
    have hp0' : node child get' 0 r p0 = some t0 := by
      rw [← ht0]
      apply node_off_write hvalid hshare hoff hr0 hp0 hn0 ht0 hr hp0 (by omega)
      rintro ⟨-, h⟩
      have hlen := h.length_le
      rw [List.length_append, List.length_singleton] at hlen
      omega
    have hf : node child get' 0 r (p0 ++ [i0]) = some f := by
      rw [node_snoc, hp0', Option.bind_some, Nat.zero_add, hnew]
    have hnone : node child get 0 r (p0 ++ [i0]) = none := by
      rw [node_snoc, ht0, Option.bind_some, Nat.zero_add, hempty]
    cases q with
    | nil => rw [List.append_nil, if_pos ⟨rfl, rfl⟩, hf]
    | cons i q =>
      have hi : valid (p0 ++ [i0] ++ [i]) := by
        apply hvalid _ _ _ hp
        exact ⟨q, by simp⟩
      rw [if_neg (by simp), node_append 0 r (p0 ++ [i0]), node_append 0 r (p0 ++ [i0]), hf, hnone,
        Option.bind_some, Option.bind_none, node, List.length_append, List.length_singleton,
          Nat.zero_add, hleaf i hi, Option.bind_none]
  · rw [node_off_write hvalid hshare hoff hr0 hp0 hn0 ht0 hr hp hn hbelow, if_neg]
    rintro ⟨rfl, rfl⟩
    exact hbelow ⟨rfl, List.prefix_refl _⟩

end Relis.Radix
