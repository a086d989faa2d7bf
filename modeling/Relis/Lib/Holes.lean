import Mathlib.Tactic

/-!
# Memory with holes

Memory holds a byte at some addresses only. Code that runs without a fault in a memory that
lacks a byte does not touch it.
-/

namespace Relis.Holes

abbrev Space := BitVec 64 → Option (BitVec 8)

inductive Fault
  | unmapped
  /-- A loop does not end in as many turns as it is given. -/
  | endless
  deriving DecidableEq, Repr

def load (m : Space) (p : BitVec 64) : Except Fault (BitVec 8) :=
  match m p with
  | some c => .ok c
  | none => .error .unmapped

def store (m : Space) (p : BitVec 64) (c : BitVec 8) : Except Fault Space :=
  match m p with
  | some _ => .ok (Function.update m p (some c))
  | none => .error .unmapped

def Holds (m : Space) : BitVec 64 → List (BitVec 8) → Prop
  | _, [] => True
  | p, c :: cs => m p = some c ∧ Holds m (p + 1) cs

variable {m m' : Space} {p : BitVec 64} {c : BitVec 8} {cs ds : List (BitVec 8)}

theorem load_of_eq (h : m p = some c) : load m p = .ok c := by rw [load, h]

theorem store_of_eq {d : BitVec 8} (h : m p = some d) :
    store m p c = .ok (Function.update m p (some c)) := by
  rw [store, h]

theorem add_succ (p : BitVec 64) (n : Nat) :
    p + 1 + BitVec.ofNat 64 n = p + BitVec.ofNat 64 (n + 1) := by
  rw [BitVec.add_assoc, BitVec.add_comm 1, BitVec.ofNat_add]
  rfl

theorem add_ofNat_ne (p : BitVec 64) {i j : Nat} (hij : i < j) (hj : j < 2 ^ 64) :
    p + BitVec.ofNat 64 i ≠ p + BitVec.ofNat 64 j := by
  intro h
  have heq := congrArg BitVec.toNat ((BitVec.add_right_inj p).mp h)
  rw [BitVec.toNat_ofNat, BitVec.toNat_ofNat, Nat.mod_eq_of_lt (by omega), Nat.mod_eq_of_lt hj] at heq
  omega

theorem holds_append :
    Holds m p (cs ++ ds) ↔ Holds m p cs ∧ Holds m (p + BitVec.ofNat 64 cs.length) ds := by
  induction cs generalizing p with
  | nil => simp [Holds]
  | cons c cs ih => rw [List.cons_append, Holds, Holds, ih, List.length_cons, add_succ, and_assoc]

theorem Holds.append_left (h : Holds m p (cs ++ ds)) : Holds m p cs := (holds_append.mp h).1

theorem Holds.take (h : Holds m p cs) (n : Nat) : Holds m p (cs.take n) := by
  rw [← List.take_append_drop n cs] at h
  exact h.append_left

theorem Holds.congr (h : Holds m p cs)
    (hsame : ∀ i < cs.length, m' (p + BitVec.ofNat 64 i) = m (p + BitVec.ofNat 64 i)) :
    Holds m' p cs := by
  induction cs generalizing p with
  | nil => trivial
  | cons c cs ih =>
    refine ⟨?_, ih h.2 fun i hi => ?_⟩
    · have h0 := hsame 0 (by simp)
      rw [BitVec.add_zero] at h0
      rw [h0, h.1]
    · rw [add_succ]
      exact hsame (i + 1) (by simpa using hi)

theorem Holds.get (h : Holds m p cs) {i : Nat} (hi : i < cs.length) :
    m (p + BitVec.ofNat 64 i) = some cs[i] := by
  induction cs generalizing p i with
  | nil => simp at hi
  | cons c cs ih =>
    cases i with
    | zero =>
      rw [BitVec.add_zero]
      exact h.1
    | succ i =>
      rw [← add_succ]
      exact ih h.2 (by simpa using hi)

theorem Holds.length_lt (h : Holds m p (cs ++ [0])) (hcs : 0 ∉ cs) : cs.length < 2 ^ 64 := by
  by_contra hlong
  have hwrap : BitVec.ofNat 64 cs.length = BitVec.ofNat 64 (cs.length - 2 ^ 64) := by
    apply BitVec.eq_of_toNat_eq
    rw [BitVec.toNat_ofNat, BitVec.toNat_ofNat]
    omega
  have hend := (holds_append.mp h).2.1
  have hget := h.append_left.get (i := cs.length - 2 ^ 64) (by omega)
  rw [← hwrap, hend, Option.some_inj] at hget
  exact hcs (hget ▸ List.getElem_mem _)

/-! ## Ranges -/

def Mapped (m : Space) (p : BitVec 64) (n : Nat) : Prop := ∀ i < n, (m (p + BitVec.ofNat 64 i)).isSome

def Clear (p : BitVec 64) (n : Nat) (q : BitVec 64) (k : Nat) : Prop :=
  ∀ i < n, ∀ j < k, p + BitVec.ofNat 64 i ≠ q + BitVec.ofNat 64 j

structure Wrote (m m' : Space) (p : BitVec 64) (cs : List (BitVec 8)) : Prop where
  holds : Holds m' p cs
  frame : ∀ x, (∀ i < cs.length, x ≠ p + BitVec.ofNat 64 i) → m' x = m x

variable {q : BitVec 64} {n k a b : Nat}

theorem Mapped.le (h : Mapped m p n) (hk : k ≤ n) : Mapped m p k := fun i hi => h i (by omega)

theorem Mapped.drop (h : Mapped m p (a + n)) : Mapped m (p + BitVec.ofNat 64 a) n := by
  intro i hi
  rw [BitVec.add_assoc, ← BitVec.ofNat_add]
  exact h (a + i) (by omega)

theorem Clear.le (h : Clear p n q k) (hn : a ≤ n) (hk : b ≤ k) : Clear p a q b :=
  fun i hi j hj => h i (by omega) j (by omega)

theorem Clear.drop_left (h : Clear p (a + n) q k) : Clear (p + BitVec.ofNat 64 a) n q k := by
  intro i hi j hj
  rw [BitVec.add_assoc, ← BitVec.ofNat_add]
  exact h (a + i) (by omega) j hj

theorem Clear.drop_right (h : Clear p n q (b + k)) : Clear p n (q + BitVec.ofNat 64 b) k := by
  intro i hi j hj
  rw [BitVec.add_assoc, ← BitVec.ofNat_add]
  exact h i hi (b + j) (by omega)

theorem Clear.add_le (h : Clear p n q k) (hn : 0 < n) (hk : 0 < k) : n + k ≤ 2 ^ 64 := by
  have hq : p + BitVec.ofNat 64 (q - p).toNat = q := by
    rw [BitVec.ofNat_toNat, BitVec.setWidth_eq, BitVec.add_comm, BitVec.sub_add_cancel]
  have hlt := (q - p).isLt
  -- `q` is not in the first range, and `p` is not in the second
  have hfar : n ≤ (q - p).toNat := by
    by_contra hnear
    exact h (q - p).toNat (by omega) 0 hk (by rw [hq, BitVec.add_zero])
  have hback : k ≤ 2 ^ 64 - (q - p).toNat := by
    by_contra hnear
    refine h 0 hn (2 ^ 64 - (q - p).toNat) (by omega) ?_
    rw [← hq, BitVec.add_assoc, hq, ← BitVec.ofNat_add, Nat.add_sub_cancel' hlt.le]
    rfl
  omega

theorem wrote_nil : Wrote m m p [] := ⟨trivial, fun _ _ => rfl⟩

theorem wrote_update : Wrote m (Function.update m p (some c)) p [c] := by
  refine ⟨⟨Function.update_self .., trivial⟩, fun x hx => Function.update_of_ne ?_ _ _⟩
  simpa using hx 0 Nat.one_pos

theorem Wrote.append {m1 : Space} (h1 : Wrote m m1 p cs)
    (h2 : Wrote m1 m' (p + BitVec.ofNat 64 cs.length) ds) (hlen : cs.length + ds.length ≤ 2 ^ 64) :
    Wrote m m' p (cs ++ ds) := by
  refine ⟨holds_append.mpr ⟨h1.holds.congr fun i hi => h2.frame _ fun j hj => ?_, h2.holds⟩,
    fun x hx => ?_⟩
  · rw [BitVec.add_assoc, ← BitVec.ofNat_add]
    exact add_ofNat_ne p (by omega) (by omega)
  · rw [List.length_append] at hx
    rw [h2.frame x fun j hj => ?_, h1.frame x fun i hi => hx i (by omega)]
    rw [BitVec.add_assoc, ← BitVec.ofNat_add]
    exact hx _ (by omega)

theorem Wrote.mapped (h : Wrote m m' p cs) (hq : Mapped m q n) : Mapped m' q n := by
  intro i hi
  by_cases hin : ∃ j < cs.length, q + BitVec.ofNat 64 i = p + BitVec.ofNat 64 j
  · obtain ⟨j, hj, heq⟩ := hin
    rw [heq, h.holds.get hj]
    rfl
  · rw [h.frame _ fun j hj heq => hin ⟨j, hj, heq⟩]
    exact hq i hi

theorem Wrote.holds_of_clear (h : Wrote m m' p cs) (hq : Holds m q ds)
    (hclear : Clear p cs.length q ds.length) : Holds m' q ds :=
  hq.congr fun j hj => h.frame _ fun i hi => (hclear i hi j hj).symm

theorem store_wrote (h : Mapped m p (n + 1)) : ∃ m', store m p c = .ok m' ∧ Wrote m m' p [c] := by
  obtain ⟨d, hd⟩ := Option.isSome_iff_exists.mp (h 0 n.succ_pos)
  rw [BitVec.add_zero] at hd
  exact ⟨_, store_of_eq hd, wrote_update⟩

/-! ## Strings -/

/-- A string at `p`. It is no null pointer and does not wrap. -/
structure IsString (m : Space) (p : BitVec 64) (s : List (BitVec 8)) : Prop where
  pos : 0 < p.toNat
  lt : p.toNat + s.length < 2 ^ 64
  nonzero : 0 ∉ s
  holds : Holds m p (s ++ [0])

theorem IsString.tail (h : IsString m p (c :: cs)) : IsString m (p + 1) cs := by
  have hlt := h.lt
  rw [List.length_cons] at hlt
  have hp : (p + 1).toNat = p.toNat + 1 := by
    rw [BitVec.toNat_add, show (1 : BitVec 64).toNat = 1 from rfl, Nat.mod_eq_of_lt (by omega)]
  refine ⟨by omega, by omega, fun h0 => h.nonzero (List.mem_cons_of_mem _ h0), h.holds.2⟩

theorem IsString.head (h : IsString m p (c :: cs)) : m p = some c ∧ c ≠ 0 :=
  ⟨h.holds.1, fun h0 => h.nonzero (by simp [h0])⟩

theorem IsString.nil (h : IsString m p []) : m p = some 0 := h.holds.1

theorem IsString.end_eq (h : IsString m p cs) : m (p + BitVec.ofNat 64 cs.length) = some 0 :=
  (holds_append.mp h.holds).2.1

theorem IsString.congr (h : IsString m p cs)
    (hsame : ∀ i ≤ cs.length, m' (p + BitVec.ofNat 64 i) = m (p + BitVec.ofNat 64 i)) :
    IsString m' p cs := by
  refine ⟨h.pos, h.lt, h.nonzero, h.holds.congr fun i hi => hsame i ?_⟩
  rw [List.length_append, List.length_singleton] at hi
  omega

theorem IsString.drop (h : IsString m p (cs ++ c :: ds)) :
    IsString m (p + BitVec.ofNat 64 (cs.length + 1)) ds := by
  induction cs generalizing p with
  | nil => exact h.tail
  | cons x cs ih =>
    rw [List.length_cons, ← add_succ]
    exact ih h.tail

theorem IsString.ne_zero (h : IsString m p cs) : p ≠ 0 := by
  rintro rfl
  exact absurd h.pos (by decide)

end Relis.Holes
