import Mathlib.Data.Nat.ModEq
import Mathlib.Logic.Function.Basic

/-!
# Queues in a ring of slots

A queue in `n` slots stops before an index. One slot is always empty, so that equal indices
mean an empty queue.
-/

namespace Relis.Cyclic

def slot (n a j : Nat) : Nat := (a + j) % n

variable {n a i j : Nat}

theorem slot_lt (hn : 0 < n) : slot n a j < n := Nat.mod_lt _ hn

theorem slot_zero (ha : a < n) : slot n a 0 = a := Nat.mod_eq_of_lt ha

theorem slot_slot : slot n (slot n a i) j = slot n a (i + j) := by
  unfold slot
  rw [Nat.mod_add_mod, Nat.add_assoc]

theorem slot_inj (hi : i < n) (hj : j < n) (h : slot n a i = slot n a j) : i = j := by
  have hmod : i ≡ j [MOD n] := Nat.ModEq.add_left_cancel' a h
  rwa [Nat.ModEq, Nat.mod_eq_of_lt hi, Nat.mod_eq_of_lt hj] at hmod

def places (n a i : Nat) : Nat := (i + (n - a)) % n

theorem places_lt (hn : 0 < n) : places n a i < n := Nat.mod_lt _ hn

theorem places_slot (ha : a < n) (hj : j < n) : places n a (slot n a j) = j := by
  unfold places slot
  rw [Nat.mod_add_mod, show a + j + (n - a) = j + n by omega, Nat.add_mod_right, Nat.mod_eq_of_lt hj]

theorem slot_places (ha : a < n) (hi : i < n) : slot n a (places n a i) = i := by
  unfold places slot
  rw [Nat.add_mod_mod, show a + (i + (n - a)) = i + n by omega, Nat.add_mod_right, Nat.mod_eq_of_lt hi]

/-! ## The queue -/

variable {α : Type}

/-- The slots from `start` on up to `stop` hold `xs`. -/
structure Queue (n : Nat) (cell : Nat → α) (start stop : Nat) (xs : List α) : Prop where
  start_lt : start < n
  length_lt : xs.length < n
  stop_eq : stop = slot n start xs.length
  cells : ∀ j x, xs[j]? = some x → cell (slot n start j) = x

variable {cell : Nat → α} {start stop : Nat} {x : α} {xs : List α}

theorem Queue.stop_lt (h : Queue n cell start stop xs) : stop < n := by
  rw [h.stop_eq]
  exact slot_lt (Nat.zero_lt_of_lt h.start_lt)

theorem Queue.places_stop (h : Queue n cell start stop xs) : places n start stop = xs.length := by
  rw [h.stop_eq, places_slot h.start_lt h.length_lt]

theorem Queue.nil (hstart : start < n) : Queue n cell start start [] where
  start_lt := hstart
  length_lt := by
    rw [List.length_nil]
    omega
  stop_eq := (slot_zero hstart).symm
  cells := by simp

theorem Queue.empty_iff (h : Queue n cell start stop xs) : start = stop ↔ xs = [] := by
  have hstart := slot_zero h.start_lt
  rw [h.stop_eq, ← List.length_eq_zero_iff]
  constructor
  · intro heq
    have hlt := h.length_lt
    exact (slot_inj (a := start) (by omega) hlt (hstart.trans heq)).symm
  · intro hlen
    rw [hlen, hstart]

theorem Queue.full_iff (h : Queue n cell start stop xs) :
    slot n stop 1 = start ↔ xs.length + 1 = n := by
  have hlt := h.length_lt
  rw [h.stop_eq, slot_slot]
  constructor
  · intro heq
    by_contra hne
    have := slot_inj (a := start) (by omega) (by omega) (heq.trans (slot_zero h.start_lt).symm)
    omega
  · intro hlen
    rw [hlen, slot, Nat.add_mod_right, Nat.mod_eq_of_lt h.start_lt]

theorem Queue.slot_ne_stop (h : Queue n cell start stop xs) (hj : j < xs.length) :
    slot n start j ≠ stop := by
  rw [h.stop_eq]
  intro heq
  have := slot_inj (hj.trans h.length_lt) h.length_lt heq
  omega

theorem Queue.push (h : Queue n cell start stop xs) (hroom : slot n stop 1 ≠ start) (x : α) :
    Queue n (Function.update cell stop x) start (slot n stop 1) (xs ++ [x]) := by
  have hlt := h.length_lt
  have hlen : xs.length + 1 ≠ n := fun heq => hroom (h.full_iff.mpr heq)
  have hlength : (xs ++ [x]).length = xs.length + 1 := by simp
  refine ⟨h.start_lt, by omega, ?_, ?_⟩
  · rw [hlength, h.stop_eq, slot_slot]
  · intro j y hy
    rw [List.getElem?_append] at hy
    split_ifs at hy with hj
    · rw [Function.update_of_ne (h.slot_ne_stop hj), h.cells j y hy]
    · obtain rfl : j = xs.length := by
        obtain ⟨hone, -⟩ := List.getElem?_eq_some_iff.mp hy
        rw [List.length_singleton] at hone
        omega
      rw [← h.stop_eq, Function.update_self]
      simpa using hy

theorem Queue.head (h : Queue n cell start stop (x :: xs)) : cell start = x := by
  have hfirst := h.cells 0 x rfl
  rwa [slot_zero h.start_lt] at hfirst

theorem Queue.pop (h : Queue n cell start stop (x :: xs)) :
    Queue n cell (slot n start 1) stop xs := by
  have hlt := h.length_lt
  rw [List.length_cons] at hlt
  refine ⟨slot_lt (by omega), by omega, ?_, ?_⟩
  · rw [slot_slot, h.stop_eq, List.length_cons, Nat.add_comm]
  · intro j y hy
    rw [slot_slot, Nat.add_comm]
    exact h.cells (j + 1) y hy

end Relis.Cyclic
