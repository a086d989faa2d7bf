import Relis.Code.StringPtr

/-!
# The bounded copies

Of the source only the bytes up to its terminator or up to the bound need to be mapped, and
of the destination only those that are written.
-/

open Relis.Holes Relis.Code.StringPtr

namespace Relis.Strings

variable {m : Space} {d dest src n : BitVec 64} {s t : List (BitVec 8)}

/-- There are `room` bytes at `dest`, and the string at `src` up to its terminator or up to `bound`
bytes, apart from each other. -/
structure Copyable (m : Space) (dest : BitVec 64) (room : Nat) (src : BitVec 64) (s : List (BitVec 8))
    (bound : Nat) : Prop where
  nonzero : 0 ∉ s
  source : Holds m src ((s ++ [0]).take bound)
  mapped : Mapped m dest room
  clear : Clear dest room src (min (s.length + 1) bound)

section

variable {room bound k : Nat} {c : BitVec 8}

theorem Copyable.le (h : Copyable m dest room src s bound) (hk : k ≤ room) :
    Copyable m dest k src s bound :=
  ⟨h.nonzero, h.source, h.mapped.le hk, h.clear.le hk le_rfl⟩

theorem Copyable.drop (h : Copyable m dest (k + room) src s bound) :
    Copyable m (dest + BitVec.ofNat 64 k) room src s bound :=
  ⟨h.nonzero, h.source, h.mapped.drop, h.clear.drop_left⟩

theorem Copyable.step (h : Copyable m dest (room + 1) src (c :: s) (bound + 1)) :
    c ≠ 0 ∧ m src = some c ∧
      ∃ m', store m dest c = .ok m' ∧ Wrote m m' dest [c] ∧
        Copyable m' (dest + 1) room (src + 1) s bound := by
  obtain ⟨m', hstore, hwrote⟩ := store_wrote (c := c) h.mapped
  have hclear := h.clear
  have hmapped := h.mapped
  rw [List.length_cons, Nat.add_min_add_right, Nat.add_comm room, Nat.add_comm _ 1] at hclear
  rw [Nat.add_comm] at hmapped
  refine ⟨fun h0 => h.nonzero (by simp [h0]), h.source.1, m', hstore, hwrote,
    fun h0 => h.nonzero (List.mem_cons_of_mem _ h0), ?_, hwrote.mapped hmapped.drop, ?_⟩
  · refine hwrote.holds_of_clear h.source.2 ?_
    rw [List.length_take, List.length_append, Nat.min_comm]
    exact (hclear.le (Nat.le_add_right 1 room) le_rfl).drop_right
  · exact hclear.drop_left.drop_right

end

/-! ## The loops -/

theorem copy_loop_spec (last : Nat) {n : Nat} (hn : n < 2 ^ 64)
    (h : Copyable m d (s.take (n - last)).length src s (n - last)) :
    ∃ m', copy_loop last m d src n = .ok ⟨d + BitVec.ofNat 64 (s.take (n - last)).length,
        src + BitVec.ofNat 64 (s.take (n - last)).length, n - (s.take (n - last)).length, m'⟩ ∧
      Wrote m m' d (s.take (n - last)) := by
  induction n generalizing m d src s with
  | zero =>
    rw [Nat.zero_sub, List.take_zero, List.length_nil, BitVec.add_zero, BitVec.add_zero]
    exact ⟨m, rfl, wrote_nil⟩
  | succ n ih =>
    by_cases hlast : n + 1 > last
    · rw [Nat.sub_add_comm (Nat.le_of_lt_succ hlast)] at h ⊢
      rw [copy_loop, if_pos hlast]
      cases s with
      | nil =>
        rw [load_of_eq h.source.1, List.take_nil, List.length_nil, BitVec.add_zero, BitVec.add_zero]
        exact ⟨m, rfl, wrote_nil⟩
      | cons c s =>
        rw [List.take_succ_cons, List.length_cons] at h ⊢
        obtain ⟨hc, hload, m1, hstore, hfirst, hnext⟩ := h.step
        obtain ⟨m', hrest, hwrote⟩ := ih (by omega) hnext
        refine ⟨m', ?_, hfirst.append hwrote ?_⟩
        · rw [load_of_eq hload]
          change (if c = 0 then _ else store m d c >>= _) = _
          rw [if_neg hc, hstore, ← add_succ, ← add_succ, Nat.add_sub_add_right]
          exact hrest
        · rw [List.length_singleton, List.length_take]
          omega
    · have hzero : n + 1 - last = 0 := by omega
      rw [copy_loop, if_neg hlast, hzero, List.take_zero, List.length_nil, BitVec.add_zero,
        BitVec.add_zero]
      exact ⟨m, rfl, wrote_nil⟩

theorem zero_loop_spec {n : Nat} (hn : n ≤ 2 ^ 64) (hd : Mapped m d n) :
    ∃ m', zero_loop m d n = .ok m' ∧ Wrote m m' d (List.replicate n 0) := by
  induction n generalizing m d with
  | zero => exact ⟨m, rfl, wrote_nil⟩
  | succ n ih =>
    obtain ⟨m1, hstore, hfirst⟩ := store_wrote (c := 0) hd
    rw [Nat.add_comm] at hd
    obtain ⟨m', hrest, hwrote⟩ := ih (by omega) (hfirst.mapped hd.drop)
    refine ⟨m', ?_, hfirst.append hwrote ?_⟩
    · rw [zero_loop, hstore]
      exact hrest
    · rw [List.length_singleton, List.length_replicate]
      omega

theorem end_loop_spec {fuel : Nat} (ht : 0 ∉ t) (hd : Holds m d (t ++ [0]))
    (hfuel : t.length < fuel) : end_loop m fuel d = .ok (d + BitVec.ofNat 64 t.length) := by
  obtain ⟨fuel, rfl⟩ : ∃ k, fuel = k + 1 := ⟨fuel - 1, by omega⟩
  induction t generalizing d fuel with
  | nil =>
    rw [end_loop, load_of_eq hd.1, List.length_nil, BitVec.add_zero]
    rfl
  | cons c t ih =>
    rw [List.length_cons] at hfuel
    obtain ⟨fuel, rfl⟩ : ∃ k, fuel = k + 1 := ⟨fuel - 1, by omega⟩
    rw [end_loop, load_of_eq hd.1]
    change (if c = 0 then _ else _) = _
    rw [if_neg fun h => ht (by simp [h]), List.length_cons, ← add_succ]
    exact ih (fun h => ht (List.mem_cons_of_mem _ h)) hd.2 fuel (by omega)

/-! ## The functions -/

theorem copy_terminated (last : Nat) {n : Nat} (hn : n < 2 ^ 64)
    (h : Copyable m d ((s.take (n - last)).length + 1) src s (n - last)) :
    ∃ r m', copy_loop last m d src n = .ok r ∧
      r.src = src + BitVec.ofNat 64 (s.take (n - last)).length ∧
      store r.mem r.d 0 = .ok m' ∧ Wrote m m' d (s.take (n - last) ++ [0]) := by
  obtain ⟨m1, hcopy, hwrote⟩ := copy_loop_spec last hn (h.le (Nat.le_succ _))
  obtain ⟨m', hstore, hend⟩ := store_wrote (c := 0) (hwrote.mapped h.mapped.drop)
  refine ⟨_, m', hcopy, rfl, hstore, hwrote.append hend ?_⟩
  rw [List.length_singleton, List.length_take]
  omega

theorem kstrscpy_spec (hn : 0 < n.toNat)
    (h : Copyable m dest ((s.take (n.toNat - 1)).length + 1) src s (n.toNat - 1)) :
    ∃ m', kstrscpy m dest src n = .ok (BitVec.ofNat 64 (s.take (n.toNat - 1)).length, m') ∧
      Wrote m m' dest (s.take (n.toNat - 1) ++ [0]) := by
  obtain ⟨r, m', hcopy, hr, hstore, hwrote⟩ := copy_terminated 1 n.isLt h
  refine ⟨m', ?_, hwrote⟩
  have hcount : n ≠ 0 := by
    rintro rfl
    exact absurd hn (by decide)
  rw [kstrscpy, if_neg hcount, hcopy]
  change store r.mem r.d 0 >>= _ = _
  rw [hstore, hr]
  change Except.ok (src + _ - src, m') = _
  rw [BitVec.add_comm, BitVec.add_sub_cancel]

theorem toInt_copied {k bound : Nat} (hk : k ≤ min s.length bound)
    (h : Copyable m dest (k + 1) src s bound) : (BitVec.ofNat 64 k).toInt = k := by
  rcases Nat.eq_zero_or_pos k with rfl | hpos
  · rfl
  · have hfit := h.clear.add_le k.succ_pos (by omega)
    rw [BitVec.toInt_ofNat', Int.bmod_eq_of_le] <;> omega

theorem kstrncpy_spec (h : Copyable m dest n.toNat src s n.toNat) :
    ∃ m', kstrncpy m dest src n = .ok (dest, m') ∧
      Wrote m m' dest (s.take n.toNat ++ List.replicate (n.toNat - s.length) 0) := by
  have hlen : (s.take n.toNat).length + (n.toNat - s.length) = n.toNat := by
    rw [List.length_take]
    omega
  have hlt := n.isLt
  obtain ⟨m1, hcopy, hwrote⟩ := copy_loop_spec 0 hlt (h.le (List.length_take_le ..))
  rw [Nat.sub_zero] at hcopy hwrote
  rw [← Nat.eq_sub_of_add_eq' hlen] at hcopy
  have hmapped := h.mapped
  rw [← hlen] at hmapped
  obtain ⟨m', hzero, hrest⟩ := zero_loop_spec (by omega) (hwrote.mapped hmapped.drop)
  refine ⟨m', ?_, hwrote.append hrest ?_⟩
  · rw [kstrncpy, hcopy]
    change zero_loop m1 _ _ >>= _ = _
    rw [hzero]
    rfl
  · rw [List.length_replicate]
    omega

theorem kstrncat_spec (ht : 0 ∉ t) (hdest : Holds m dest (t ++ [0]))
    (h : Copyable m dest (t.length + ((s.take n.toNat).length + 1)) src s n.toNat) :
    ∃ m', (∀ fuel > t.length, kstrncat m fuel dest src n = .ok (dest, m')) ∧
      Wrote m m' (dest + BitVec.ofNat 64 t.length) (s.take n.toNat ++ [0]) := by
  obtain ⟨r, m', hcopy, -, hstore, hwrote⟩ := copy_terminated 0 n.isLt h.drop
  refine ⟨m', fun fuel hfuel => ?_, hwrote⟩
  rw [kstrncat, end_loop_spec ht hdest hfuel]
  change copy_loop 0 m _ src n.toNat >>= _ = _
  rw [hcopy]
  change store r.mem r.d 0 >>= _ = _
  rw [hstore]
  rfl

theorem length_appended {k : Nat} (ht : 0 ∉ t) (hdest : Holds m dest (t ++ [0]))
    (hk : k ≤ min s.length n.toNat) (h : Copyable m dest (t.length + (k + 1)) src s n.toNat) :
    t.length + (k + 1) ≤ 2 ^ 64 := by
  rcases Nat.eq_zero_or_pos k with rfl | hpos
  · exact hdest.length_lt ht
  · have hfit := h.clear.add_le (by omega) (by omega)
    omega

/-- For every string `s` and every bound `n`, in any memory that has room for the copy apart from
the string. -/
theorem bounded_copies (m : Space) (dest src n : BitVec 64) (s : List (BitVec 8)) :
    (0 < n.toNat → Copyable m dest (min (n.toNat - 1) s.length + 1) src s (n.toNat - 1) →
      ∃ r m', kstrscpy m dest src n = .ok (r, m') ∧ r.toInt = min (n.toNat - 1) s.length ∧
        Wrote m m' dest (s.take (n.toNat - 1) ++ [0]) ∧
          (s.take (n.toNat - 1) ++ [0]).length ≤ n.toNat) ∧
    (Copyable m dest n.toNat src s n.toNat →
      ∃ m', kstrncpy m dest src n = .ok (dest, m') ∧
        Wrote m m' dest (s.take n.toNat ++ List.replicate (n.toNat - s.length) 0) ∧
        (s.take n.toNat ++ List.replicate (n.toNat - s.length) 0).length = n.toNat) ∧
    (∀ t : List (BitVec 8), 0 ∉ t → Holds m dest (t ++ [0]) →
      Copyable m dest (t.length + (min n.toNat s.length + 1)) src s n.toNat →
      ∃ m', (∀ fuel > t.length, kstrncat m fuel dest src n = .ok (dest, m')) ∧
        Holds m' dest (t ++ (s.take n.toNat ++ [0])) ∧
        Wrote m m' (dest + BitVec.ofNat 64 t.length) (s.take n.toNat ++ [0])) := by
  refine ⟨fun hn h => ?_, fun h => ?_, fun t ht hdest h => ?_⟩
  · have hint := toInt_copied (by omega) h
    rw [← List.length_take] at h hint
    obtain ⟨m', hcall, hwrote⟩ := kstrscpy_spec hn h
    refine ⟨_, m', hcall, by rw [hint, List.length_take], hwrote, ?_⟩
    rw [List.length_append, List.length_take, List.length_singleton]
    omega
  · obtain ⟨m', hcall, hwrote⟩ := kstrncpy_spec h
    refine ⟨m', hcall, hwrote, ?_⟩
    rw [List.length_append, List.length_take, List.length_replicate]
    omega
  · have hfit := length_appended ht hdest (by omega) h
    rw [← List.length_take] at h hfit
    obtain ⟨m', hcall, hwrote⟩ := kstrncat_spec ht hdest h
    refine ⟨m', hcall, holds_append.mpr ⟨?_, hwrote.holds⟩, hwrote⟩
    refine hdest.append_left.congr fun i hi => hwrote.frame _ fun j hj => ?_
    rw [List.length_append, List.length_singleton] at hj
    rw [BitVec.add_assoc, ← BitVec.ofNat_add]
    exact add_ofNat_ne dest (by omega) (by omega)

def letters : Space := fun p =>
  if p = 16 then some 0x78 else if p = 17 ∨ p = 18 ∨ p = 19 ∨ p = 34 then some 0
  else if p = 32 then some 0x61 else if p = 33 then some 0x62 else none

theorem letters_copied :
    (∃ r m', kstrscpy letters 16 32 2 = .ok (r, m') ∧ r.toInt = 1 ∧ Holds m' 16 [0x61, 0]) ∧
    (∃ m', kstrncpy letters 16 32 4 = .ok (16, m') ∧ Holds m' 16 [0x61, 0x62, 0, 0]) ∧
    ∃ m', kstrncat letters 2 16 32 1 = .ok (16, m') ∧ Holds m' 16 [0x78, 0x61, 0] := by
  refine ⟨?_, ?_, ?_⟩
  · obtain ⟨r, m', hcall, hr, hwrote, -⟩ := (bounded_copies letters 16 32 2 [0x61, 0x62]).1 (by decide)
      ⟨by decide, ⟨by decide, trivial⟩, by unfold Mapped; decide, by unfold Clear; decide⟩
    exact ⟨r, m', hcall, hr, hwrote.holds⟩
  · obtain ⟨m', hcall, hwrote, -⟩ := (bounded_copies letters 16 32 4 [0x61, 0x62]).2.1
      ⟨by decide, ⟨by decide, by decide, by decide, trivial⟩, by unfold Mapped; decide, by unfold Clear; decide⟩
    exact ⟨m', hcall, hwrote.holds⟩
  · obtain ⟨m', hcall, hholds, -⟩ := (bounded_copies letters 16 32 1 [0x61, 0x62]).2.2
      [0x78] (by decide)
      ⟨by decide, by decide, trivial⟩
      ⟨by decide, ⟨by decide, trivial⟩, by unfold Mapped; decide, by unfold Clear; decide⟩
    exact ⟨m', hcall 2 (by decide), hholds⟩

end Relis.Strings
