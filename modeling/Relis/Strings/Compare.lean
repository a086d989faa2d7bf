import Relis.Code.String
import Relis.Code.StringPtr

/-!
# The comparisons are the lexicographic order

Only the bytes up to the first difference or to the end of a string are there, so this is
all that a comparison reads.
-/

open Relis.Holes Relis.Code Relis.Code.StringPtr

namespace Relis.Strings

/-! ## The order -/

def codes (s : List (BitVec 8)) : List Nat := s.map BitVec.toNat

/-- The sign of `r` is the order of the two lists. A prefix comes first. -/
structure Compares (r : Int) (a b : List (BitVec 8)) : Prop where
  neg : r < 0 ↔ codes a < codes b
  zero : r = 0 ↔ a = b
  pos : 0 < r ↔ codes b < codes a

theorem Compares.nonpos {r : Int} {a b : List (BitVec 8)} (h : Compares r a b) :
    r ≤ 0 ↔ codes a ≤ codes b := by
  rw [← not_lt, h.pos, not_lt]

def common (a b : List (BitVec 8)) : Nat := ((a.zip b).takeWhile fun x => x.1 = x.2).length

variable {a b : List (BitVec 8)} {x y : BitVec 8}

theorem common_cons_self : common (x :: a) (x :: b) = common a b + 1 := by simp [common]

theorem codes_cons : codes (x :: a) = x.toNat :: codes a := rfl

theorem codes_inj : codes a = codes b ↔ a = b :=
  (List.map_injective_iff.mpr fun _ _ => BitVec.eq_of_toNat_eq).eq_iff

theorem toNat_pos (h : x ≠ 0) : 0 < x.toNat := by
  rw [Nat.pos_iff_ne_zero]
  exact fun h0 => h (BitVec.eq_of_toNat_eq h0)

theorem kstrcmp_compares (ha : a[b.length]? ≠ some 0) (hb : b[a.length]? ≠ some 0) :
    Compares (Code.kstrcmp a b) a b := by
  induction a generalizing b with
  | nil =>
    cases b with
    | nil => exact ⟨by simp [Code.kstrcmp], by simp [Code.kstrcmp], by simp [Code.kstrcmp]⟩
    | cons y b =>
      have hy := toNat_pos (x := y) (by simpa using hb)
      refine ⟨?_, ?_, ?_⟩
      · simp [Code.kstrcmp, codes, hy]
      · simp [Code.kstrcmp, hy.ne']
      · simp [Code.kstrcmp, codes]
  | cons x a ih =>
    cases b with
    | nil =>
      have hx := toNat_pos (x := x) (by simpa using ha)
      refine ⟨?_, ?_, ?_⟩
      · simp [Code.kstrcmp, codes]
      · simp [Code.kstrcmp, hx.ne']
      · simp [Code.kstrcmp, codes, hx]
    | cons y b =>
      rw [Code.kstrcmp]
      by_cases hxy : x = y
      · obtain ⟨hneg, hzero, hpos⟩ := ih (b := b) (by simpa using ha) (by simpa using hb)
        rw [if_pos hxy]
        subst hxy
        refine ⟨?_, ?_, ?_⟩
        · simpa [codes_cons] using hneg
        · simpa using hzero
        · simpa [codes_cons] using hpos
      · have hne : x.toNat ≠ y.toNat := fun h => hxy (BitVec.eq_of_toNat_eq h)
        rw [if_neg hxy]
        refine ⟨?_, ?_, ?_⟩
        · rw [codes_cons, codes_cons, List.cons_lt_cons_iff]
          omega
        · rw [List.cons.injEq]
          exact iff_of_false (by omega) fun h => hxy h.1
        · rw [codes_cons, codes_cons, List.cons_lt_cons_iff]
          omega

theorem kstrcmp_strings (ha : 0 ∉ a) (hb : 0 ∉ b) : Compares (Code.kstrcmp a b) a b :=
  kstrcmp_compares (fun h => ha (List.mem_of_getElem? h)) fun h => hb (List.mem_of_getElem? h)

theorem kstrcmp_buffers (h : a.length = b.length) : Compares (Code.kstrcmp a b) a b :=
  kstrcmp_compares (by simp [← h]) (by simp [h])

/-! ## The loops -/

variable {m : Space} {p q : BitVec 64}

theorem byte_difference_spec (hp : m p = some x) (hq : m q = some y) :
    byte_difference m p q = .ok (x.toNat - y.toNat) := by
  rw [byte_difference, load_of_eq hp, load_of_eq hq]
  rfl

theorem kstrcmp_spec {fuel : Nat} (ha : 0 ∉ a) (hb : 0 ∉ b)
    (hp : Holds m p ((a ++ [0]).take (common a b + 1)))
    (hq : Holds m q ((b ++ [0]).take (common a b + 1))) (hfuel : common a b < fuel) :
    StringPtr.kstrcmp m fuel p q = .ok (Code.kstrcmp a b) := by
  obtain ⟨fuel, rfl⟩ : ∃ n, fuel = n + 1 := ⟨fuel - 1, by omega⟩
  induction a generalizing b p q fuel with
  | nil =>
    rw [StringPtr.kstrcmp, load_of_eq hp.1]
    cases b with
    | nil => exact byte_difference_spec hp.1 hq.1
    | cons y b => exact byte_difference_spec hp.1 hq.1
  | cons x a ih =>
    have hx : x ≠ 0 := fun h => ha (by simp [h])
    rw [StringPtr.kstrcmp, load_of_eq hp.1]
    change (if x = 0 then _ else _) = _
    rw [if_neg hx]
    cases b with
    | nil =>
      rw [load_of_eq hq.1]
      change (if x = 0 then _ else _) = _
      rw [if_neg hx]
      exact byte_difference_spec hp.1 hq.1
    | cons y b =>
      rw [load_of_eq hq.1]
      change (if x = y then _ else _) = _
      by_cases hxy : x = y
      · subst hxy
        rw [common_cons_self] at hp hq hfuel
        obtain ⟨fuel, rfl⟩ : ∃ n, fuel = n + 1 := ⟨fuel - 1, by omega⟩
        rw [if_pos rfl, Code.kstrcmp, if_pos rfl]
        exact ih (fun h => ha (List.mem_cons_of_mem _ h)) (fun h => hb (List.mem_cons_of_mem _ h))
          hp.2 hq.2 fuel
          (by omega)
      · rw [if_neg hxy, Code.kstrcmp, if_neg hxy]
        exact byte_difference_spec hp.1 hq.1

theorem kstrncmp_spec {n : Nat} (ha : 0 ∉ a) (hb : 0 ∉ b)
    (hp : Holds m p ((a ++ [0]).take (min (common a b + 1) n)))
    (hq : Holds m q ((b ++ [0]).take (min (common a b + 1) n))) :
    kstrncmp_loop m p q n = .ok (Code.kstrcmp (a.take n) (b.take n)) := by
  induction n generalizing a b p q with
  | zero => rfl
  | succ n ih =>
    rw [Nat.add_min_add_right] at hp hq
    rw [kstrncmp_loop]
    cases a with
    | nil =>
      rw [load_of_eq hp.1]
      cases b with
      | nil => exact byte_difference_spec hp.1 hq.1
      | cons y b => exact byte_difference_spec hp.1 hq.1
    | cons x a =>
      have hx : x ≠ 0 := fun h => ha (by simp [h])
      rw [load_of_eq hp.1]
      change (if x = 0 then _ else _) = _
      rw [if_neg hx]
      cases b with
      | nil =>
        rw [load_of_eq hq.1]
        change (if x = 0 then _ else _) = _
        rw [if_neg hx]
        exact byte_difference_spec hp.1 hq.1
      | cons y b =>
        rw [load_of_eq hq.1]
        change (if x = y then _ else _) = _
        rw [List.take_succ_cons, List.take_succ_cons, Code.kstrcmp]
        by_cases hxy : x = y
        · subst hxy
          rw [common_cons_self] at hp hq
          rw [if_pos rfl, if_pos rfl]
          exact ih (fun h => ha (List.mem_cons_of_mem _ h))
            (fun h => hb (List.mem_cons_of_mem _ h)) hp.2 hq.2
        · rw [if_neg hxy, if_neg hxy]
          exact byte_difference_spec hp.1 hq.1

theorem kmemcmp_spec (hlen : a.length = b.length) (hp : Holds m p (a.take (common a b + 1)))
    (hq : Holds m q (b.take (common a b + 1))) :
    kmemcmp_loop m p q a.length = .ok (Code.kstrcmp a b) := by
  induction a generalizing b p q with
  | nil =>
    obtain rfl := List.length_eq_zero_iff.mp hlen.symm
    rfl
  | cons x a ih =>
    cases b with
    | nil => simp at hlen
    | cons y b =>
      rw [List.length_cons, kmemcmp_loop, load_of_eq hp.1, load_of_eq hq.1, Code.kstrcmp]
      change (if x ≠ y then _ else _) = _
      by_cases hxy : x = y
      · subst hxy
        rw [common_cons_self] at hp hq
        rw [if_neg (not_not.mpr rfl), if_pos rfl]
        exact ih (by simpa using hlen) hp.2 hq.2
      · rw [if_pos hxy, if_neg hxy]
        exact byte_difference_spec hp.1 hq.1

/-! ## All strings -/

/-- The three comparisons, and the laws of the order that `kstrcmp` makes of the strings in one
memory. -/
theorem comparisons_lexicographic :
    (∀ (a b : CString) (m : Space) (p q : BitVec 64),
      Holds m p ((a.bytes ++ [0]).take (common a.bytes b.bytes + 1)) →
      Holds m q ((b.bytes ++ [0]).take (common a.bytes b.bytes + 1)) →
      ∃ r, Compares r a.bytes b.bytes ∧ ∀ fuel > common a.bytes b.bytes,
        StringPtr.kstrcmp m fuel p q = .ok r) ∧
    (∀ (a b : CString) (m : Space) (p q n : BitVec 64),
      Holds m p ((a.bytes ++ [0]).take (min (common a.bytes b.bytes + 1) n.toNat)) →
      Holds m q ((b.bytes ++ [0]).take (min (common a.bytes b.bytes + 1) n.toNat)) →
      ∃ r, Compares r (a.bytes.take n.toNat) (b.bytes.take n.toNat) ∧ kstrncmp m p q n = .ok r) ∧
    (∀ (a b : List (BitVec 8)) (m : Space) (p q n : BitVec 64), a.length = n.toNat →
      b.length = n.toNat →
      Holds m p (a.take (common a b + 1)) → Holds m q (b.take (common a b + 1)) →
      ∃ r, Compares r a b ∧ kmemcmp m p q n = .ok r) ∧
    (∀ (a b c : CString) (m : Space) (p q t : BitVec 64),
      Holds m p (a.bytes ++ [0]) → Holds m q (b.bytes ++ [0]) → Holds m t (c.bytes ++ [0]) →
      ∃ ab ba bc ac turns, (∀ fuel > turns, StringPtr.kstrcmp m fuel p q = .ok ab ∧
          StringPtr.kstrcmp m fuel q p = .ok ba ∧ StringPtr.kstrcmp m fuel q t = .ok bc ∧
          StringPtr.kstrcmp m fuel p t = .ok ac) ∧
        (ab = 0 ↔ a.bytes = b.bytes) ∧ (ab ≤ 0 ∨ ba ≤ 0) ∧ (ab ≤ 0 → ba ≤ 0 → a.bytes = b.bytes) ∧
        (ab ≤ 0 → bc ≤ 0 → ac ≤ 0)) := by
  refine ⟨?_, ?_, ?_, ?_⟩
  · intro a b m p q hp hq
    exact ⟨_, kstrcmp_strings a.nonzero b.nonzero,
      fun fuel hfuel => kstrcmp_spec a.nonzero b.nonzero hp hq hfuel⟩
  · intro a b m p q n hp hq
    refine ⟨_, kstrcmp_strings ?_ ?_, kstrncmp_spec a.nonzero b.nonzero hp hq⟩
    · exact fun h => a.nonzero (List.mem_of_mem_take h)
    · exact fun h => b.nonzero (List.mem_of_mem_take h)
  · intro a b m p q n ha hb hp hq
    have hlen := ha.trans hb.symm
    refine ⟨_, kstrcmp_buffers hlen, ?_⟩
    rw [kmemcmp, ← ha]
    exact kmemcmp_spec hlen hp hq
  · intro a b c m p q t hp hq ht
    have hab := kstrcmp_strings a.nonzero b.nonzero
    have hba := kstrcmp_strings b.nonzero a.nonzero
    have hbc := kstrcmp_strings b.nonzero c.nonzero
    have hac := kstrcmp_strings a.nonzero c.nonzero
    refine ⟨Code.kstrcmp a.bytes b.bytes, Code.kstrcmp b.bytes a.bytes,
      Code.kstrcmp b.bytes c.bytes, Code.kstrcmp a.bytes c.bytes,
      common a.bytes b.bytes + common b.bytes a.bytes + common b.bytes c.bytes +
        common a.bytes c.bytes, fun fuel hfuel => ⟨?_, ?_, ?_, ?_⟩, hab.zero, ?_, ?_, ?_⟩
    · exact kstrcmp_spec a.nonzero b.nonzero (hp.take _) (hq.take _) (by omega)
    · exact kstrcmp_spec b.nonzero a.nonzero (hq.take _) (hp.take _) (by omega)
    · exact kstrcmp_spec b.nonzero c.nonzero (hq.take _) (ht.take _) (by omega)
    · exact kstrcmp_spec a.nonzero c.nonzero (hp.take _) (ht.take _) (by omega)
    · rw [hab.nonpos, hba.nonpos]
      exact le_total _ _
    · rw [hab.nonpos, hba.nonpos]
      exact fun h h' => codes_inj.mp (le_antisymm h h')
    · rw [hab.nonpos, hbc.nonpos, hac.nonpos]
      exact le_trans

def twoStrings : Space := fun p =>
  if p = 16 ∨ p = 32 then some 0x61 else if p = 17 then some 0x62 else if p =
    33 then some 0x63 else none

theorem twoStrings_ordered :
    ∃ r < 0, ∀ fuel > 1, StringPtr.kstrcmp twoStrings fuel 16 32 = .ok r := by
  obtain ⟨r, hr, hret⟩ := comparisons_lexicographic.1 ⟨[0x61, 0x62], by decide⟩
    ⟨[0x61, 0x63], by decide⟩ twoStrings
    16 32 ⟨by decide, by decide, trivial⟩ ⟨by decide, by decide, trivial⟩
  exact ⟨r, hr.neg.mpr (by decide), hret⟩

end Relis.Strings
