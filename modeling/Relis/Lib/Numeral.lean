import Mathlib.Data.Nat.Digits.Lemmas
import Mathlib.Tactic

/-!
# Numerals in ASCII

The most significant digit comes first. The digits after 9 are the small letters.
-/

namespace Relis.Numeral

variable {b n d : Nat}

def digitChar (d : Nat) : BitVec 8 := BitVec.ofNat 8 (if d < 10 then 48 + d else 87 + d)

def digitValue (c : BitVec 8) : Nat := if c.toNat < 58 then c.toNat - 48 else c.toNat - 87

def numeral (b n : Nat) : List (BitVec 8) :=
  if n = 0 then [digitChar 0] else (b.digits n).reverse.map digitChar

def value (b : Nat) (s : List (BitVec 8)) : Nat := Nat.ofDigits b (s.map digitValue).reverse

theorem digitValue_digitChar (h : d < 16) : digitValue (digitChar d) = d := by
  unfold digitValue digitChar
  split_ifs with hd hc hc <;> simp only [BitVec.toNat_ofNat] at hc ⊢ <;> omega

theorem digitChar_ne_zero (h : d < 16) (hd : d ≠ 0) : digitChar d ≠ digitChar 0 := by
  intro heq
  have := congrArg digitValue heq
  rw [digitValue_digitChar h, digitValue_digitChar (by omega)] at this
  exact hd this

theorem value_numeral (hb : 1 < b) (hb' : b ≤ 16) (n : Nat) : value b (numeral b n) = n := by
  unfold value numeral
  split_ifs with hn
  · simp [digitValue_digitChar, hn]
  · have hdigits : (b.digits n).map (digitValue ∘ digitChar) = b.digits n := by
      refine (List.map_congr_left fun d hd => ?_).trans (List.map_id _)
      exact digitValue_digitChar ((Nat.digits_lt_base hb hd).trans_le hb')
    rw [List.map_map, List.map_reverse, hdigits, List.reverse_reverse, Nat.ofDigits_digits]

theorem head_numeral (hb : 1 < b) (hb' : b ≤ 16) (hn : n ≠ 0) :
    (numeral b n).head? ≠ some (digitChar 0) := by
  have hne : b.digits n ≠ [] := Nat.digits_ne_nil_iff_ne_zero.mpr hn
  rw [numeral, if_neg hn, List.head?_map, List.head?_reverse,
    List.getLast?_eq_getLast_of_ne_nil hne, Option.map_some]
  intro heq
  have hlt : (b.digits n).getLast hne < b := Nat.digits_lt_base hb (List.getLast_mem hne)
  exact digitChar_ne_zero (hlt.trans_le hb') (Nat.getLast_digit_ne_zero b hn) (Option.some_inj.mp heq)

theorem le_of_mem_numeral {c : BitVec 8} (hb : 1 < b) (hb' : b ≤ 16) (h : c ∈ numeral b n) :
    48 ≤ c.toNat := by
  have hchar : ∀ d < 16, 48 ≤ (digitChar d).toNat := by decide
  unfold numeral at h
  split_ifs at h with hn
  · rw [List.mem_singleton.mp h]
    exact hchar 0 (by decide)
  · obtain ⟨d, hd, rfl⟩ := List.mem_map.mp h
    exact hchar d ((Nat.digits_lt_base hb (List.mem_reverse.mp hd)).trans_le hb')

theorem length_numeral_pos (b n : Nat) : 0 < (numeral b n).length := by
  unfold numeral
  split_ifs with hn
  · exact Nat.one_pos
  · rw [List.length_map, List.length_reverse]
    exact List.length_pos_iff.mpr (Nat.digits_ne_nil_iff_ne_zero.mpr hn)

theorem digits_reverse (hb : 1 < b) (hn : 0 < n) :
    (b.digits n).reverse.map digitChar = (b.digits (n / b)).reverse.map digitChar ++
      [digitChar (n % b)] := by
  rw [Nat.digits_def' hb hn, List.reverse_cons, List.map_append, List.map_singleton]

end Relis.Numeral
