import Mathlib.Tactic.IntervalCases
import Mathlib.Logic.Function.Basic

/-!
# Byte memory with little-endian words

Memory is a byte for every address, and a word has its lowest byte first.
-/

namespace Relis.Bytes

variable {a b i k x : Nat}

abbrev Mem := Nat → BitVec 8

def read64 (m : Mem) (a : Nat) : BitVec 64 :=
  m (a + 7) ++ m (a + 6) ++ m (a + 5) ++ m (a + 4) ++ m (a + 3) ++ m (a + 2) ++ m (a + 1) ++ m a

def write64 (m : Mem) (a : Nat) (v : BitVec 64) : Mem := fun x =>
  if a ≤ x ∧ x < a + 8 then v.extractLsb' (8 * (x - a)) 8 else m x

theorem read64_congr {m m' : Mem} (h : ∀ x, a ≤ x → x < a + 8 → m' x = m x) :
    read64 m' a = read64 m a := by
  unfold read64
  rw [h a (by omega) (by omega), h (a + 1) (by omega) (by omega), h (a + 2) (by omega) (by omega),
    h (a + 3) (by omega) (by omega), h (a + 4) (by omega) (by omega),
    h (a + 5) (by omega) (by omega), h (a + 6) (by omega) (by omega),
    h (a + 7) (by omega) (by omega)]

theorem append_extract (v : BitVec 64) :
    v.extractLsb' 56 8 ++ v.extractLsb' 48 8 ++ v.extractLsb' 40 8 ++ v.extractLsb' 32 8 ++
      v.extractLsb' 24 8 ++ v.extractLsb' 16 8 ++ v.extractLsb' 8 8 ++ v.extractLsb' 0 8 = v := by
  ext i hi
  simp only [BitVec.getElem_append, BitVec.getElem_extractLsb']
  interval_cases i <;> simp

@[simp] theorem read64_write64_self (m : Mem) (a : Nat) (v : BitVec 64) :
    read64 (write64 m a v) a = v := by
  simpa [read64, write64] using append_extract v

theorem read64_write64_ne (m : Mem) (v : BitVec 64) (h : b + 8 ≤ a ∨ a + 8 ≤ b) :
    read64 (write64 m a v) b = read64 m b := by
  apply read64_congr
  intro x h1 h2
  rw [write64, if_neg (by omega)]

theorem write64_apply_of_lt (m : Mem) (v : BitVec 64) (h : x < a ∨ a + 8 ≤ x) :
    write64 m a v x = m x := by
  rw [write64, if_neg (by omega)]

theorem write64_read64 (m : Mem) (a : Nat) : write64 m a (read64 m a) = m := by
  funext x
  unfold write64
  split_ifs with h
  · obtain ⟨i, hi, rfl⟩ : ∃ i < 8, x = a + i := ⟨x - a, by omega, by omega⟩
    rw [Nat.add_sub_cancel_left]
    unfold read64
    ext j hj
    rw [BitVec.getElem_extractLsb']
    simp only [BitVec.getLsbD_append]
    interval_cases i <;> interval_cases j <;> rfl
  · rfl

theorem read64_eq_zero {m : Mem} (h : ∀ x, a ≤ x → x < a + 8 → m x = 0) : read64 m a = 0 := by
  rw [read64_congr (m := fun _ => 0) h]
  simp [read64]

theorem read64_low (m : Mem) (a : Nat) : (read64 m a).extractLsb' 0 8 = m a := by
  unfold read64
  ext i hi
  rw [BitVec.getElem_extractLsb', Nat.zero_add, BitVec.getLsbD_append, if_pos hi]
  exact BitVec.getLsbD_eq_getElem hi

/-! ## 16-bit and 32-bit words -/

def read16 (m : Mem) (a : Nat) : BitVec 16 := m (a + 1) ++ m a

def read32 (m : Mem) (a : Nat) : BitVec 32 := m (a + 3) ++ m (a + 2) ++ m (a + 1) ++ m a

def write32 (m : Mem) (a : Nat) (v : BitVec 32) : Mem := fun x =>
  if a ≤ x ∧ x < a + 4 then v.extractLsb' (8 * (x - a)) 8 else m x

theorem read32_congr {m m' : Mem} (h : ∀ i < 4, m' (b + i) = m (a + i)) :
    read32 m' b = read32 m a := by
  have h0 := h 0 (by omega)
  rw [Nat.add_zero, Nat.add_zero] at h0
  unfold read32
  rw [h0, h 1 (by omega), h 2 (by omega), h 3 (by omega)]

theorem append_extract32 (v : BitVec 32) :
    v.extractLsb' 24 8 ++ v.extractLsb' 16 8 ++ v.extractLsb' 8 8 ++ v.extractLsb' 0 8 = v := by
  ext i hi
  simp only [BitVec.getElem_append, BitVec.getElem_extractLsb']
  interval_cases i <;> simp

@[simp] theorem read32_write32_self (m : Mem) (a : Nat) (v : BitVec 32) :
    read32 (write32 m a v) a = v := by
  simpa [read32, write32] using append_extract32 v

theorem read32_write32_ne (m : Mem) (v : BitVec 32) (h : b + 4 ≤ a ∨ a + 4 ≤ b) :
    read32 (write32 m a v) b = read32 m b := by
  apply read32_congr
  intro i hi
  rw [write32, if_neg (by omega)]

theorem write32_apply_of_lt (m : Mem) (v : BitVec 32) (h : x < a ∨ a + 4 ≤ x) :
    write32 m a v x = m x := by
  rw [write32, if_neg (by omega)]

theorem read64_write32_ne (m : Mem) (v : BitVec 32) (h : b + 8 ≤ a ∨ a + 4 ≤ b) :
    read64 (write32 m a v) b = read64 m b := by
  apply read64_congr
  intro x h1 h2
  exact write32_apply_of_lt m v (by omega)

theorem read32_write64_ne (m : Mem) (v : BitVec 64) (h : b + 4 ≤ a ∨ a + 8 ≤ b) :
    read32 (write64 m a v) b = read32 m b := by
  apply read32_congr
  intro i hi
  exact write64_apply_of_lt m v (by omega)

def write16 (m : Mem) (a : Nat) (v : BitVec 16) : Mem := fun x =>
  if a ≤ x ∧ x < a + 2 then v.extractLsb' (8 * (x - a)) 8 else m x

/-! ## The bytes of an array of words -/

def ofWords (w : Nat → BitVec 32) : Mem := fun x => (w (x / 4)).extractLsb' (8 * (x % 4)) 8

theorem ofWords_apply (w : Nat → BitVec 32) (hk : k < 4) (hx : x = 4 * i + k) :
    ofWords w x = (w i).extractLsb' (8 * k) 8 := by
  rw [ofWords, show x / 4 = i by omega, show x % 4 = k by omega]

theorem read32_ofWords (w : Nat → BitVec 32) (hx : x = 4 * i) : read32 (ofWords w) x = w i := by
  subst hx
  have hbyte : ∀ k < 4, ofWords w (4 * i + k) = (w i).extractLsb' (8 * k) 8 :=
    fun k hk => ofWords_apply w hk rfl
  rw [read32, hbyte 3 (by decide), hbyte 2 (by decide), hbyte 1 (by decide), ← Nat.add_zero (4 * i),
    hbyte 0 (by decide)]
  exact append_extract32 (w i)

theorem read16_ofWords (w : Nat → BitVec 32) (hk : k = 0 ∨ k = 2) (hx : x = 4 * i + k) :
    read16 (ofWords w) x = (w i).extractLsb' (8 * k) 16 := by
  subst hx
  rw [read16, Nat.add_assoc, ofWords_apply w (by omega) rfl, ofWords_apply w (by omega) rfl]
  ext j hj
  simp only [BitVec.getElem_append, BitVec.getElem_extractLsb']
  split_ifs with hlow
  · rfl
  · rw [show 8 * (k + 1) + (j - 8) = 8 * k + j by omega]

def setHalf (v : BitVec 32) (k : Nat) (h : BitVec 16) : BitVec 32 :=
  (v &&& ~~~(0xFFFF#32 <<< (k * 8))) ||| (h.setWidth 32 <<< (k * 8))

theorem extract_setHalf (v : BitVec 32) (h : BitVec 16) {j : Nat} (hk : k = 0 ∨ k = 2) (hj : j < 4) :
    (setHalf v k h).extractLsb' (8 * j) 8 =
      if k ≤ j ∧ j < k + 2 then h.extractLsb' (8 * (j - k)) 8 else v.extractLsb' (8 * j) 8 := by
  rcases hk with rfl | rfl <;> interval_cases j <;>
  · ext i hi
    interval_cases i <;> simp [setHalf]

theorem ofWords_update (w : Nat → BitVec 32) (v : BitVec 32) (ha : a = 4 * i) :
    ofWords (Function.update w i v) = write32 (ofWords w) a v := by
  funext x
  rw [write32, ofWords, ofWords]
  by_cases hx : x / 4 = i
  · rw [hx, Function.update_self, if_pos (by omega), show x % 4 = x - a by omega]
  · rw [Function.update_of_ne hx, if_neg (by omega)]

theorem ofWords_update_half (w : Nat → BitVec 32) (h : BitVec 16) (hk : k = 0 ∨ k = 2)
    (ha : a = 4 * i + k) :
    ofWords (Function.update w i (setHalf (w i) k h)) = write16 (ofWords w) a h := by
  funext x
  rw [write16, ofWords, ofWords]
  by_cases hx : x / 4 = i
  · rw [hx, Function.update_self, extract_setHalf _ _ hk (by omega)]
    by_cases hin : a ≤ x ∧ x < a + 2
    · rw [if_pos hin, if_pos (by omega), show x % 4 - k = x - a by omega]
    · rw [if_neg hin, if_neg (by omega)]
  · rw [Function.update_of_ne hx, if_neg (by omega)]

/-! ## 32-bit words as natural numbers -/

/-- `n` as a `uint32_t`. -/
def u32 (n : Nat) : Nat := n % 4294967296

theorem u32_of_lt {n : Nat} (h : n < 4294967296) : u32 n = n := Nat.mod_eq_of_lt h

theorem u32_pred {n : Nat} (h : 0 < n) (h' : n < 4294967296) : u32 (n + 4294967296 - 1) = n - 1 := by
  unfold u32
  omega

end Relis.Bytes
