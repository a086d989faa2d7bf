import Mathlib.Data.BitVec
import Relis.Lib.Bytes

/-!
# Words that are pushed on a stack

The stack grows down, and an address wraps at 64 bits.
-/

open Relis.Bytes

namespace Relis.Stack

def word (top : BitVec 64) (k : Nat) : Nat := (top - BitVec.ofNat 64 (8 * k)).toNat

def Apart (a b : Nat) : Prop := a + 8 ≤ b ∨ b + 8 ≤ a

variable {top : BitVec 64} {i j k a x : Nat} {m : Mem} {v : BitVec 64} {vs : List (BitVec 64)}

theorem word_of_le (h : 8 * k ≤ top.toNat) : word top k = top.toNat - 8 * k := by
  unfold word
  rw [BitVec.toNat_sub, BitVec.toNat_ofNat]
  omega

theorem words_apart (hij : i < j) (hj : j < 2 ^ 60) :
    Apart (word top (i + 1)) (word top (j + 1)) := by
  unfold word Apart
  rw [BitVec.toNat_sub, BitVec.toNat_ofNat, BitVec.toNat_sub, BitVec.toNat_ofNat]
  omega

theorem sub_words (top : BitVec 64) (k : Nat) :
    top - 8 - BitVec.ofNat 64 (8 * k) = top - BitVec.ofNat 64 (8 * (k + 1)) := by
  rw [show 8 * (k + 1) = 8 + 8 * k by omega, BitVec.ofNat_add, sub_sub]
  rfl

theorem word_sub : word (top - 8) k = word top (k + 1) := by
  unfold word
  rw [sub_words]

theorem word_one : word top 1 = (top - 8).toNat := rfl

def pushed (top : BitVec 64) (m : Mem) : List (BitVec 64) → Mem
  | [] => m
  | v :: vs => pushed (top - 8) (write64 m (top - 8).toNat v) vs

theorem pushed_append (top : BitVec 64) (m : Mem) (vs ws : List (BitVec 64)) :
    pushed top m (vs ++ ws) = pushed (top - BitVec.ofNat 64 (8 * vs.length))
      (pushed top m vs) ws := by
  induction vs generalizing top m with
  | nil => simp [pushed]
  | cons v vs ih =>
    rw [List.cons_append, pushed, ih, pushed, List.length_cons, sub_words]

theorem pushed_apply (h : ∀ k < vs.length, x < word top (k + 1) ∨ word top (k + 1) + 8 ≤ x) :
    pushed top m vs x = m x := by
  induction vs generalizing top m with
  | nil => rfl
  | cons v vs ih =>
    rw [pushed, ih]
    · exact write64_apply_of_lt m v (h 0 (by simp))
    · intro k hk
      rw [word_sub]
      exact h (k + 1) (by simpa using hk)

theorem read64_pushed_of_apart (h : ∀ k < vs.length, Apart a (word top (k + 1))) :
    read64 (pushed top m vs) a = read64 m a := by
  apply read64_congr
  intro x hlo hhi
  apply pushed_apply
  intro k hk
  rcases h k hk with h | h
  · exact .inl (by omega)
  · exact .inr (by omega)

theorem read64_pushed (hlen : vs.length < 2 ^ 60) (hv : vs[i]? = some v) :
    read64 (pushed top m vs) (word top (i + 1)) = v := by
  induction vs generalizing top m i with
  | nil => simp at hv
  | cons w vs ih =>
    rw [pushed]
    cases i with
    | zero =>
      obtain rfl : w = v := by simpa using hv
      rw [read64_pushed_of_apart, word_one, read64_write64_self]
      intro k hk
      rw [word_sub]
      rw [List.length_cons] at hlen
      exact words_apart (by omega) (by omega)
    | succ i =>
      rw [← word_sub]
      rw [List.length_cons] at hlen
      exact ih (by omega) (by simpa using hv)

end Relis.Stack
