import Relis.Code.StringPtr

/-!
# `kstrstr` finds the first occurrence

The memory has to hold the two strings and nothing else.
-/

open Relis.Holes Relis.Code.StringPtr

namespace Relis.Strings

def Occurs (hay needle : List (BitVec 8)) (i : Nat) : Prop := i ≤ hay.length ∧ needle <+: hay.drop i

/-- Where the first occurrence is in a string at `p`, or null. -/
def First (p : BitVec 64) (hay needle : List (BitVec 8)) (r : BitVec 64) : Prop :=
  (∃ i, r = p + BitVec.ofNat 64 i ∧ r ≠ 0 ∧ Occurs hay needle i ∧ ∀ j < i, ¬Occurs hay needle j) ∨
    r = 0 ∧ ∀ i, ¬Occurs hay needle i

variable {m : Space} {p q : BitVec 64} {hay needle : List (BitVec 8)} {c : BitVec 8}

theorem occurs_zero : Occurs hay needle 0 ↔ needle <+: hay := by simp [Occurs]

theorem occurs_succ {i : Nat} : Occurs (c :: hay) needle (i + 1) ↔ Occurs hay needle i :=
  by simp [Occurs]

theorem kstrstr_match_spec {fuel : Nat} (hp : IsString m p hay) (hq : IsString m q needle)
    (hfuel : hay.length < fuel) :
    ∃ n y, kstrstr_match m fuel p q = .ok n ∧ m n = some y ∧ (y = 0 ↔ needle <+: hay) := by
  obtain ⟨fuel, rfl⟩ : ∃ n, fuel = n + 1 := ⟨fuel - 1, by omega⟩
  induction hay generalizing needle p q fuel with
  | nil =>
    rw [kstrstr_match, load_of_eq hp.nil]
    cases needle with
    | nil => exact ⟨q, 0, rfl, hq.nil, by simp⟩
    | cons y needle => exact ⟨q, y, rfl, hq.head.1, iff_of_false hq.head.2 (by simp)⟩
  | cons x hay ih =>
    rw [kstrstr_match, load_of_eq hp.head.1]
    change ∃ n y, (if x = 0 then _ else _) = _ ∧ _
    rw [if_neg hp.head.2]
    cases needle with
    | nil =>
      rw [load_of_eq hq.nil]
      exact ⟨q, 0, rfl, hq.nil, by simp⟩
    | cons y needle =>
      rw [load_of_eq hq.head.1]
      change ∃ n z, (if y = 0 then _ else _) = _ ∧ _
      rw [if_neg hq.head.2, List.cons_prefix_cons]
      by_cases hxy : x = y
      · obtain ⟨fuel, rfl⟩ : ∃ n, fuel = n + 1 := ⟨fuel - 1, by rw [List.length_cons] at hfuel; omega⟩
        obtain ⟨n, z, hn, hz, hiff⟩ := ih hp.tail hq.tail fuel (by simpa using hfuel)
        rw [if_pos hxy]
        exact ⟨n, z, hn, hz, hiff.trans (by simp [hxy])⟩
      · rw [if_neg hxy]
        exact ⟨q, y, rfl, hq.head.1, iff_of_false hq.head.2 fun h => hxy h.1.symm⟩

theorem kstrstr_from_spec {turns fuel : Nat} (hp : IsString m p hay) (hq : IsString m q needle)
    (hne : needle ≠ []) (hturns : hay.length < turns) (hfuel : hay.length < fuel) :
    ∃ r, kstrstr_from m turns q fuel p = .ok r ∧ First p hay needle r := by
  obtain ⟨fuel, rfl⟩ : ∃ n, fuel = n + 1 := ⟨fuel - 1, by omega⟩
  induction hay generalizing p fuel with
  | nil =>
    rw [kstrstr_from, load_of_eq hp.nil]
    refine ⟨0, rfl, .inr ⟨rfl, fun i hi => hne ?_⟩⟩
    have hpre := hi.2
    rwa [List.drop_nil, List.prefix_nil] at hpre
  | cons x hay ih =>
    obtain ⟨n, y, hn, hy, hiff⟩ := kstrstr_match_spec hp hq hturns
    rw [kstrstr_from, load_of_eq hp.head.1]
    change ∃ r, (if x = 0 then _ else _) = _ ∧ _
    rw [if_neg hp.head.2, hn]
    change ∃ r, (load m n >>= _) = _ ∧ _
    rw [load_of_eq hy]
    change ∃ r, (if y = 0 then _ else _) = _ ∧ _
    by_cases hy0 : y = 0
    · rw [if_pos hy0]
      refine ⟨p, rfl, .inl ⟨0, by simp, hp.ne_zero, occurs_zero.mpr (hiff.mp hy0), by simp⟩⟩
    · rw [if_neg hy0]
      have hnot : ¬Occurs (x :: hay) needle 0 := fun h => hy0 (hiff.mpr (occurs_zero.mp h))
      rw [List.length_cons] at hturns hfuel
      obtain ⟨fuel, rfl⟩ : ∃ n, fuel = n + 1 := ⟨fuel - 1, by omega⟩
      obtain ⟨r, hr, hfirst⟩ := ih hp.tail (by omega) fuel (by omega)
      refine ⟨r, hr, ?_⟩
      rcases hfirst with ⟨i, hri, hr0, hocc, hmin⟩ | ⟨hr0, hnone⟩
      · refine .inl ⟨i + 1, by rw [hri, add_succ], hr0, occurs_succ.mpr hocc, fun j hj => ?_⟩
        cases j with
        | zero => exact hnot
        | succ j =>
          rw [occurs_succ]
          exact hmin j (by omega)
      · refine .inr ⟨hr0, fun i => ?_⟩
        cases i with
        | zero => exact hnot
        | succ i =>
          rw [occurs_succ]
          exact hnone i

theorem First.unique {r r' : BitVec 64} (h : First p hay needle r) (h' : First p hay needle r') :
    r = r' := by
  rcases h with ⟨i, hr, -, hocc, hmin⟩ | ⟨hr, hnone⟩
  · rcases h' with ⟨j, hr', -, hocc', hmin'⟩ | ⟨-, hnone'⟩
    · have hij : i = j := by
        rcases Nat.lt_trichotomy i j with hlt | heq | hgt
        · exact absurd hocc (hmin' i hlt)
        · exact heq
        · exact absurd hocc' (hmin j hgt)
      rw [hr, hr', hij]
    · exact absurd hocc (hnone' i)
  · rcases h' with ⟨j, -, -, hocc', -⟩ | ⟨hr', -⟩
    · exact absurd hocc' (hnone j)
    · rw [hr, hr']

theorem kstrstr_spec {fuel : Nat} (hp : IsString m p hay) (hq : IsString m q needle)
    (hfuel : hay.length < fuel) : ∃ r, kstrstr m fuel p q = .ok r ∧ First p hay needle r := by
  cases needle with
  | nil =>
    refine ⟨p, ?_, .inl ⟨0, by simp, hp.ne_zero, occurs_zero.mpr List.nil_prefix, by simp⟩⟩
    rw [kstrstr, load_of_eq hq.nil]
    rfl
  | cons y needle =>
    obtain ⟨r, hr, hfirst⟩ := kstrstr_from_spec hp hq (by simp) hfuel hfuel
    refine ⟨r, ?_, hfirst⟩
    rw [kstrstr, load_of_eq hq.head.1]
    change (if y = 0 then _ else _) = _
    rw [if_neg hq.head.2, hr]

/-- For all strings, in any memory that holds them. -/
theorem kstrstr_first {m : Space} {p q : BitVec 64} {hay needle : List (BitVec 8)}
    (hp : IsString m p hay) (hq : IsString m q needle) :
    ∃ r, (∀ fuel > hay.length, kstrstr m fuel p q = .ok r) ∧ First p hay needle r := by
  obtain ⟨r, hr, hfirst⟩ := kstrstr_spec hp hq (Nat.lt_succ_self _)
  refine ⟨r, fun fuel hfuel => ?_, hfirst⟩
  obtain ⟨r', hr', hfirst'⟩ := kstrstr_spec hp hq hfuel
  rw [hr', hfirst.unique hfirst']

def aab : Space := fun p =>
  if p = 16 ∨ p = 17 ∨ p = 32 then some 0x61 else if p = 18 ∨ p = 33 then some 0x62
  else if p = 19 ∨ p = 34 then some 0 else none

theorem aab_first :
    ∃ r, kstrstr aab 4 16 32 = .ok r ∧ First 16 [0x61, 0x61, 0x62] [0x61, 0x62] r := by
  have hp : IsString aab 16 [0x61, 0x61, 0x62] :=
    ⟨by decide, by decide, by decide, by decide, by decide, by decide, by decide, trivial⟩
  have hq : IsString aab 32 [0x61, 0x62] :=
    ⟨by decide, by decide, by decide, by decide, by decide, by decide, trivial⟩
  obtain ⟨r, hr, hfirst⟩ := kstrstr_first hp hq
  exact ⟨r, hr 4 (by decide), hfirst⟩

end Relis.Strings
