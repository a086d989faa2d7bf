import Relis.Code.StringPtr

/-!
# `kstrsep` splits a string into its fields

A caller that goes on until it gets null has got the fields of the string, which has a zero
byte in place of each delimiter.
-/

open Relis.Holes Relis.Code.StringPtr

namespace Relis.Strings

variable {m last : Space} {p d : BitVec 64} {s delim field rest : List (BitVec 8)} {c : BitVec 8}
  {fuel turns : Nat}

theorem signExtend_char (c : BitVec 8) : (c.signExtend 32).setWidth 8 = c := by
  revert c
  decide

theorem kstrchr_spec (hd : IsString m d delim) (hc : c ≠ 0) (hfuel : delim.length < fuel) :
    ∃ r, kstrchr m (c.signExtend 32) fuel d = .ok r ∧ (r ≠ 0 ↔ c ∈ delim) := by
  obtain ⟨fuel, rfl⟩ : ∃ n, fuel = n + 1 := ⟨fuel - 1, by omega⟩
  induction delim generalizing d fuel with
  | nil =>
    have hc' : c.signExtend 32 ≠ 0 := fun h => hc (by rw [← signExtend_char c, h]; rfl)
    rw [kstrchr, load_of_eq hd.nil]
    refine ⟨0, ?_, by simp⟩
    change Except.ok (if c.signExtend 32 = 0 then d else 0) = _
    rw [if_neg hc']
  | cons x delim ih =>
    rw [kstrchr, load_of_eq hd.head.1]
    change ∃ r, (if x = 0 then _ else if x = _ then _ else _) = _ ∧ _
    rw [if_neg hd.head.2, signExtend_char, List.mem_cons]
    by_cases hx : x = c
    · rw [if_pos hx]
      exact ⟨d, rfl, iff_of_true hd.ne_zero (.inl hx.symm)⟩
    · rw [List.length_cons] at hfuel
      obtain ⟨fuel, rfl⟩ : ∃ n, fuel = n + 1 := ⟨fuel - 1, by omega⟩
      obtain ⟨r, hr, hiff⟩ := ih hd.tail fuel (by omega)
      rw [if_neg hx]
      exact ⟨r, hr, hiff.trans (by simp [Ne.symm hx])⟩

/-! ## One call -/

theorem kstrsep_from_cons {s0 : BitVec 64} (hs : IsString m p (c :: s)) (hd : IsString m d delim)
    (hc : c ∉ delim) (hturns : delim.length < turns) :
    kstrsep_from m turns d s0 (fuel + 1) p = kstrsep_from m turns d s0 fuel (p + 1) := by
  obtain ⟨r, hr, hiff⟩ := kstrchr_spec hd hs.head.2 hturns
  rw [kstrsep_from, load_of_eq hs.head.1]
  change (if c = 0 then _ else _) = _
  rw [if_neg hs.head.2, hr]
  exact if_neg fun h => hc (hiff.mp h)

theorem kstrsep_from_last {s0 : BitVec 64} (hs : IsString m p s) (hd : IsString m d delim)
    (hnone : ∀ c ∈ s, c ∉ delim) (hturns : delim.length < turns) (hfuel : s.length < fuel) :
    kstrsep_from m turns d s0 fuel p = .ok ⟨s0, 0, m⟩ := by
  obtain ⟨fuel, rfl⟩ : ∃ n, fuel = n + 1 := ⟨fuel - 1, by omega⟩
  induction s generalizing p fuel with
  | nil =>
    rw [kstrsep_from, load_of_eq hs.nil]
    rfl
  | cons c s ih =>
    rw [List.length_cons] at hfuel
    obtain ⟨fuel, rfl⟩ : ∃ n, fuel = n + 1 := ⟨fuel - 1, by omega⟩
    rw [kstrsep_from_cons hs hd (hnone c (by simp)) hturns]
    exact ih hs.tail (fun x hx => hnone x (by simp [hx])) fuel (by omega)

theorem kstrsep_from_cut {s0 : BitVec 64} (hs : IsString m p (field ++ c :: rest))
    (hd : IsString m d delim) (hnone : ∀ x ∈ field, x ∉ delim) (hc : c ∈ delim)
    (hturns : delim.length < turns) (hfuel : field.length < fuel) :
    kstrsep_from m turns d s0 fuel p =
      .ok ⟨s0, p + BitVec.ofNat 64 (field.length + 1),
        Function.update m (p + BitVec.ofNat 64 field.length) (some 0)⟩ := by
  obtain ⟨fuel, rfl⟩ : ∃ n, fuel = n + 1 := ⟨fuel - 1, by omega⟩
  induction field generalizing p fuel with
  | nil =>
    rw [List.nil_append] at hs
    obtain ⟨r, hr, hiff⟩ := kstrchr_spec hd hs.head.2 hturns
    rw [kstrsep_from, load_of_eq hs.head.1]
    change (if c = 0 then _ else _) = _
    rw [if_neg hs.head.2, hr]
    change (if r ≠ 0 then _ else _) = _
    rw [if_pos (hiff.mpr hc), store_of_eq hs.head.1, List.length_nil, BitVec.add_zero]
    rfl
  | cons x field ih =>
    rw [List.length_cons] at hfuel
    obtain ⟨fuel, rfl⟩ : ∃ n, fuel = n + 1 := ⟨fuel - 1, by omega⟩
    rw [List.cons_append] at hs
    rw [kstrsep_from_cons hs hd (hnone x (by simp)) hturns, List.length_cons, ← add_succ,
      ← add_succ p field.length]
    exact ih hs.tail (fun y hy => hnone y (by simp [hy])) fuel (by omega)

/-! ## All calls -/

/-- `s` at `p` with its delimiters cut out, and all else as in `m`. -/
structure Split (m : Space) (p : BitVec 64) (delim s : List (BitVec 8))
  (calls : List (BitVec 64 × Space))
    (last : Space) : Prop where
  /-- Each call returns the next field, which the later calls leave as it is. -/
  fields : List.Forall₂ (fun call field => IsString call.2 call.1 field ∧
    IsString last call.1 field) calls
    (s.splitOnP (· ∈ delim))
  cut : Holds last p ((s.map fun c => if c ∈ delim then 0 else c) ++ [0])
  unchanged : ∀ a, (∀ i < s.length, a ≠ p + BitVec.ofNat 64 i) → last a = m a

def Apart (p d : BitVec 64) (s delim : List (BitVec 8)) : Prop :=
  ∀ i < s.length, ∀ j < delim.length, p + BitVec.ofNat 64 i ≠ d + BitVec.ofNat 64 j

theorem kstrsep_null : kstrsep m turns 0 d = .ok ⟨0, 0, m⟩ := rfl

theorem kstrsep_all_null (hfuel : 0 < fuel) : kstrsep_all turns d fuel m 0 = .ok ([], m) := by
  obtain ⟨fuel, rfl⟩ : ∃ n, fuel = n + 1 := ⟨fuel - 1, by omega⟩
  rw [kstrsep_all, kstrsep_null]
  rfl

theorem kstrsep_all_step {r : Separated} {calls : List (BitVec 64 × Space)} (hp : p ≠ 0)
    (hcall : kstrsep_from m turns d p turns p = .ok r) (hr : r.field = p)
    (hrest : kstrsep_all turns d fuel r.mem r.stringp = .ok (calls, last)) :
    kstrsep_all turns d (fuel + 1) m p = .ok ((p, r.mem) :: calls, last) := by
  rw [kstrsep_all, kstrsep, if_neg hp, hcall]
  change (if r.field = 0 then _ else _) = _
  rw [hr, if_neg hp, hrest]
  rfl

theorem map_cut_of_none (hnone : ∀ c ∈ s, c ∉ delim) :
    (s.map fun c => if c ∈ delim then 0 else c) = s := by
  rw [List.map_congr_left fun c hc => if_neg (hnone c hc), List.map_id'']
  exact fun _ => rfl

theorem delim_cut (hd : IsString m d delim) (hs : IsString m p (field ++ c :: rest))
    (hapart : Apart p d (field ++ c :: rest) delim) :
    IsString (Function.update m (p + BitVec.ofNat 64 field.length) (some 0)) d delim := by
  have hlt : field.length < (field ++ c :: rest).length := by simp
  refine hd.congr fun j hj => Function.update_of_ne (fun heq => ?_) _ _
  rcases Nat.lt_or_eq_of_le hj with hj | hj
  · exact hapart _ hlt j hj heq.symm
  · -- the terminator of the set is a zero byte, and no byte of the string is one
    have hbyte := hs.holds.get (i := field.length) (by simp)
    rw [← heq, hj, hd.end_eq] at hbyte
    refine hs.nonzero ?_
    rw [Option.some.inj hbyte]
    simp

theorem Split.single (hs : IsString m p s) (hnone : ∀ c ∈ s, c ∉ delim) :
    Split m p delim s [(p, m)] m where
  fields := by
    rw [List.splitOnP_eq_singleton (by simpa using hnone)]
    exact .cons ⟨hs, hs⟩ .nil
  cut := by
    rw [map_cut_of_none hnone]
    exact hs.holds
  unchanged _ _ := rfl

theorem Split.cons {calls : List (BitVec 64 × Space)} (hs : IsString m p (field ++ c :: rest))
    (hnone : ∀ x ∈ field, x ∉ delim) (hc : c ∈ delim)
    (h : Split (Function.update m (p + BitVec.ofNat 64 field.length) (some 0))
      (p + BitVec.ofNat 64 (field.length + 1)) delim rest calls last) :
    Split m p delim (field ++ c :: rest)
      ((p, Function.update m (p + BitVec.ofNat 64 field.length) (some 0)) :: calls) last := by
  have hlt := hs.lt
  rw [List.length_append, List.length_cons] at hlt
  set m1 := Function.update m (p + BitVec.ofNat 64 field.length) (some 0) with hm1
  have hfield : IsString m1 p field := by
    refine ⟨hs.pos, by omega, fun h0 => hs.nonzero (List.mem_append_left _ h0),
      holds_append.mpr ⟨?_, ?_, trivial⟩⟩
    · refine hs.holds.append_left.append_left.congr fun i hi => Function.update_of_ne ?_ _ _
      exact add_ofNat_ne p hi (by omega)
    · exact Function.update_self _ _ _
  have hlast : IsString last p field := by
    refine hfield.congr fun i hi => h.unchanged _ fun j hj => ?_
    rw [BitVec.add_assoc, ← BitVec.ofNat_add]
    exact add_ofNat_ne p (by omega) (by omega)
  refine ⟨?_, ?_, fun a ha => ?_⟩
  · rw [List.splitOnP_append_cons_of_forall_mem (by simpa using hnone) c (by simpa using hc)]
    exact .cons ⟨hfield, hlast⟩ h.fields
  · rw [List.map_append, List.map_cons, if_pos hc, map_cut_of_none hnone, List.append_assoc,
      List.cons_append, List.append_cons, holds_append]
    refine ⟨hlast.holds, ?_⟩
    rw [List.length_append, List.length_singleton]
    exact h.cut
  · rw [h.unchanged a fun i hi => ?_, hm1, Function.update_of_ne (ha _ (by simp))]
    rw [BitVec.add_assoc, ← BitVec.ofNat_add]
    exact ha _ (by simp; omega)

theorem kstrsep_all_spec (hs : IsString m p s) (hd : IsString m d delim)
    (hapart : Apart p d s delim) :
    ∃ calls last, (∀ turns > max s.length delim.length, ∀ fuel > s.length + 1,
      kstrsep_all turns d fuel m p = .ok (calls, last)) ∧ Split m p delim s calls last := by
  induction hn : s.length using Nat.strong_induction_on generalizing m p s with
  | _ n ih =>
    cases hfind : s.find? (· ∈ delim) with
    | none =>
      have hnone : ∀ c ∈ s, c ∉ delim := by simpa using hfind
      refine ⟨_, _, fun turns hturns fuel hfuel => ?_, .single hs hnone⟩
      obtain ⟨fuel, rfl⟩ : ∃ k, fuel = k + 1 := ⟨fuel - 1, by omega⟩
      exact kstrsep_all_step hs.ne_zero (kstrsep_from_last hs hd hnone (by omega) (by omega)) rfl
        (kstrsep_all_null (by omega))
    | some c =>
      obtain ⟨hc, field, rest, rfl, hfield⟩ := List.find?_eq_some_iff_append.mp hfind
      have hc : c ∈ delim := by simpa using hc
      have hnone : ∀ x ∈ field, x ∉ delim := by simpa using hfield
      have hlt := hs.lt
      rw [List.length_append, List.length_cons] at hn hlt
      have hrest : IsString (Function.update m (p + BitVec.ofNat 64 field.length) (some 0))
          (p + BitVec.ofNat 64 (field.length + 1)) rest := by
        refine hs.drop.congr fun i hi => Function.update_of_ne (Ne.symm ?_) _ _
        rw [BitVec.add_assoc, ← BitVec.ofNat_add]
        exact add_ofNat_ne p (by omega) (by omega)
      have hapart' : Apart (p + BitVec.ofNat 64 (field.length + 1)) d rest delim := fun i hi j hj => by
        rw [BitVec.add_assoc, ← BitVec.ofNat_add]
        exact hapart _ (by simp; omega) j hj
      obtain ⟨calls, last, hcalls, hsplit⟩ :=
        ih rest.length (by omega) hrest (delim_cut hd hs hapart) hapart' rfl
      refine ⟨_, _, fun turns hturns fuel hfuel => ?_, .cons hs hnone hc hsplit⟩
      obtain ⟨fuel, rfl⟩ : ∃ k, fuel = k + 1 := ⟨fuel - 1, by omega⟩
      exact kstrsep_all_step hs.ne_zero (kstrsep_from_cut hs hd hnone hc (by omega) (by omega)) rfl
        (hcalls turns (by omega) fuel (by omega))

theorem length_splitOnP (P : BitVec 8 → Bool) (s : List (BitVec 8)) :
    (s.splitOnP P).length = s.countP P + 1 := by
  induction s with
  | nil => rfl
  | cons c s ih =>
    rw [List.splitOnP_cons_eq_if_modifyHead]
    by_cases hc : P c = true
    · rw [if_pos hc, List.length_cons, ih, List.countP_cons_of_pos hc]
    · rw [if_neg hc, List.length_modifyHead, ih, List.countP_cons_of_neg hc]

/-- For every string and every delimiter set, in any memory that holds them apart. -/
theorem kstrsep_splits {m : Space} {p d : BitVec 64} {s delim : List (BitVec 8)} (hs : IsString m p s)
    (hd : IsString m d delim) (hapart : Apart p d s delim) :
    ∃ calls last, (∀ turns > max s.length delim.length, ∀ fuel > s.length + 1,
        kstrsep_all turns d fuel m p = .ok (calls, last)) ∧
      Split m p delim s calls last ∧
      calls.length = s.countP (· ∈ delim) + 1 ∧
      -- the fields and the delimiters that were between them
      ((s.splitOnP (· ∈ delim)).zipWith (· ++ ·) ((s.filter (· ∈ delim)).map (fun c => [c]) ++ [[]])).flatten = s := by
  obtain ⟨calls, last, hcalls, hsplit⟩ := kstrsep_all_spec hs hd hapart
  refine ⟨calls, last, hcalls, hsplit, ?_, List.splitOnP_spec s⟩
  rw [hsplit.fields.length_eq, length_splitOnP]

def commas : Space := fun p =>
  if p = 16 ∨ p = 18 ∨ p = 32 then some 0x2C else if p = 17 then some 0x61
  else if p = 19 ∨ p = 33 then some 0 else none

theorem commas_split :
    ∃ calls last, kstrsep_all 4 32 5 commas 16 = .ok (calls, last) ∧ calls.length = 3 := by
  have hs : IsString commas 16 [0x2C, 0x61, 0x2C] :=
    ⟨by decide, by decide, by decide, by decide, by decide, by decide, by decide, trivial⟩
  have hd : IsString commas 32 [0x2C] :=
    ⟨by decide, by decide, by decide, by decide, by decide, trivial⟩
  obtain ⟨calls, last, hcalls, -, hlen, -⟩ := kstrsep_splits hs hd (by unfold Apart; decide)
  exact ⟨calls, last, hcalls 4 (by decide) 5 (by decide), hlen⟩

end Relis.Strings
