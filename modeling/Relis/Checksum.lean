import Mathlib.Tactic
import Relis.Code.Ip
import Relis.Lib.EndAround

/-!
# The checksum of a header

The words of a header with its checksum add up to 0xFFFF, so a receiver gets 0.
-/

open Relis.Code Relis.EndAround

namespace Relis.Checksum

/-! ## The two loops -/

def total (words : List (BitVec 16)) : Nat := (words.map BitVec.toNat).sum

theorem total_le (words : List (BitVec 16)) : total words ≤ 65535 * words.length := by
  induction words with
  | nil => simp [total]
  | cons w words ih =>
    have := w.isLt
    simp only [total, List.map_cons, List.sum_cons, List.length_cons] at ih ⊢
    omega

theorem toNat_foldl_words (words : List (BitVec 16)) (sum : BitVec 32)
    (h : sum.toNat + total words < 2 ^ 32) :
    (words.foldl (fun sum w => sum + w.setWidth 32) sum).toNat = sum.toNat + total words := by
  induction words generalizing sum with
  | nil => simp [total]
  | cons w words ih =>
    have hcons : total (w :: words) = w.toNat + total words := by simp [total]
    rw [hcons] at h ⊢
    have hadd : (sum + w.setWidth 32).toNat = sum.toNat + w.toNat := by
      rw [BitVec.toNat_add, BitVec.toNat_setWidth]
      have := w.isLt
      omega
    rw [List.foldl_cons, ih _ (by omega), hadd]
    omega

theorem toNat_sum_words {words : List (BitVec 16)} (h : words.length ≤ 65536) :
    (sum_words words).toNat = total words := by
  have hle := total_le words
  rw [sum_words, toNat_foldl_words _ _ (by simp; omega)]
  simp

theorem toNat_fold (sum : BitVec 32) :
    ((sum &&& 0xFFFF#32) + (sum >>> 16)).toNat = (sum &&& 0xFFFF#32).toNat + (sum >>> 16).toNat ∧
      ((sum &&& 0xFFFF#32) + (sum >>> 16)).toNat = fold 65536 sum.toNat := by
  have hlow : (sum &&& 0xFFFF#32).toNat = sum.toNat % 65536 := Nat.and_two_pow_sub_one_eq_mod _ 16
  have hhigh : (sum >>> 16).toNat = sum.toNat / 65536 := by
    rw [BitVec.toNat_ushiftRight, Nat.shiftRight_eq_div_pow]
  have hadd : ((sum &&& 0xFFFF#32) + (sum >>> 16)).toNat =
      (sum &&& 0xFFFF#32).toNat + (sum >>> 16).toNat := by
    have := sum.isLt
    rw [BitVec.toNat_add, hlow, hhigh]
    omega
  exact ⟨hadd, by rw [hadd, hlow, hhigh, fold]⟩

theorem shift_ne_zero_iff (sum : BitVec 32) : sum >>> 16 ≠ 0 ↔ 65536 ≤ sum.toNat := by
  have hhigh : (sum >>> 16).toNat = sum.toNat / 65536 := by
    rw [BitVec.toNat_ushiftRight, Nat.shiftRight_eq_div_pow]
  rw [Ne, ← BitVec.toNat_inj, hhigh, show (0 : BitVec 32).toNat = 0 from rfl]
  omega

structure Folded (sum sum' : BitVec 32) : Prop where
  lt : sum'.toNat < 65536
  modEq : sum'.toNat ≡ sum.toNat [MOD 65535]
  pos : 0 < sum.toNat → 0 < sum'.toNat
  le : sum'.toNat ≤ sum.toNat

theorem Folded.step {sum sum1 sum' : BitVec 32} (hsum : sum1 = (sum &&& 0xFFFF#32) + (sum >>> 16))
    (h : Folded sum1 sum') : Folded sum sum' := by
  obtain ⟨hlt, hmod, hpos, hle⟩ := h
  rw [hsum, (toNat_fold sum).2] at hmod hpos hle
  exact ⟨hlt, hmod.trans (fold_modEq (by omega)), fun h => hpos (fold_pos h),
    hle.trans (fold_le (by omega))⟩

theorem fold_sum_spec (sum : BitVec 32) : ∃ sum', fold_sum 3 sum = some sum' ∧ Folded sum sum' := by
  have hlt := sum.isLt
  have hdone : ∀ s : BitVec 32, s.toNat < 65536 → ∀ fuel, fold_sum (fuel + 1) s = some s ∧
      Folded s s := by
    intro s hs fuel
    rw [fold_sum, if_neg (by rw [shift_ne_zero_iff]; omega)]
    exact ⟨rfl, hs, rfl, id, le_rfl⟩
  have hround : ∀ s : BitVec 32, 65536 ≤ s.toNat → ∀ fuel,
      fold_sum (fuel + 1) s = fold_sum fuel ((s &&& 0xFFFF#32) + (s >>> 16)) := by
    intro s hs fuel
    rw [fold_sum, if_pos ((shift_ne_zero_iff s).mpr hs)]
  rcases Nat.lt_or_ge sum.toNat 65536 with h1 | h1
  · exact ⟨_, hdone sum h1 2⟩
  rw [hround sum h1 2]
  obtain ⟨s1, hs1⟩ : ∃ s1, s1 = (sum &&& 0xFFFF#32) + (sum >>> 16) := ⟨_, rfl⟩
  have hle1 : s1.toNat ≤ 131070 := by
    rw [hs1, (toNat_fold sum).2]
    unfold fold
    omega
  rw [← hs1]
  rcases Nat.lt_or_ge s1.toNat 65536 with h2 | h2
  · obtain ⟨hfold, hfolded⟩ := hdone s1 h2 1
    exact ⟨_, hfold, hfolded.step hs1⟩
  rw [hround s1 h2 1]
  obtain ⟨s2, hs2⟩ : ∃ s2, s2 = (s1 &&& 0xFFFF#32) + (s1 >>> 16) := ⟨_, rfl⟩
  have hlt2 : s2.toNat < 65536 := by
    rw [hs2, (toNat_fold s1).2]
    unfold fold
    omega
  rw [← hs2]
  obtain ⟨hfold, hfolded⟩ := hdone s2 hlt2 0
  exact ⟨_, hfold, (hfolded.step hs2).step hs1⟩

/-! ## The header -/

theorem toNat_append_bytes (hi lo : BitVec 8) : (hi ++ lo).toNat = 256 * hi.toNat + lo.toNat := by
  rw [BitVec.toNat_append, ← Nat.shiftLeft_add_eq_or_of_lt lo.isLt, Nat.shiftLeft_eq]
  omega

theorem append_bytes16 (v : BitVec 16) : (v >>> 8).setWidth 8 ++ v.setWidth 8 = v := by
  rw [← BitVec.toNat_inj, toNat_append_bytes]
  simp only [BitVec.toNat_setWidth, BitVec.toNat_ushiftRight, Nat.shiftRight_eq_div_pow]
  have := v.isLt
  omega

theorem words16_bytes16 (v : BitVec 16) (bytes : List (BitVec 8)) :
    words16 (bytes16 v ++ bytes) = v :: words16 bytes := by
  rw [bytes16, List.cons_append, List.cons_append, List.nil_append, words16, append_bytes16]

theorem bytes32_eq (v : BitVec 32) :
    bytes32 v = bytes16 (v.setWidth 16) ++ bytes16 ((v >>> 16).setWidth 16) := by
  simp only [bytes32, bytes16, List.cons_append, List.nil_append, List.cons.injEq, ← BitVec.toNat_inj,
    BitVec.toNat_setWidth, BitVec.toNat_ushiftRight, Nat.shiftRight_eq_div_pow, and_true]
  omega

def Iphdr.before (hdr : Iphdr) : List (BitVec 16) :=
  [hdr.tos ++ (hdr.version ++ hdr.ihl), hdr.tot_len, hdr.id, hdr.frag_off, hdr.protocol ++ hdr.ttl]

def Iphdr.after (hdr : Iphdr) : List (BitVec 16) :=
  [hdr.saddr.setWidth 16, (hdr.saddr >>> 16).setWidth 16, hdr.daddr.setWidth 16,
    (hdr.daddr >>> 16).setWidth 16]

theorem words16_bytes (hdr : Iphdr) :
    words16 hdr.bytes = Iphdr.before hdr ++ hdr.check :: Iphdr.after hdr := by
  have hlast : ∀ v, words16 (bytes16 v) = [v] := fun v => by
    simpa [words16] using words16_bytes16 v []
  simp only [Iphdr.bytes, bytes32_eq, List.append_assoc, List.cons_append, List.nil_append, words16,
    words16_bytes16, hlast, Iphdr.before, Iphdr.after]

theorem total_words (hdr : Iphdr) :
    total ((words16 hdr.bytes).take 10) = total (Iphdr.before hdr) + hdr.check.toNat + total
      (Iphdr.after hdr) := by
  have hten : (words16 hdr.bytes).take 10 = words16 hdr.bytes :=
    List.take_of_length_le (by rw [words16_bytes]; rfl)
  rw [hten, words16_bytes]
  simp only [total, List.map_append, List.map_cons, List.sum_append, List.sum_cons]
  omega

theorem ip_checksum_spec (hdr : Iphdr) : ∃ sum c : Nat,
    sum + c = 65535 ∧ ip_checksum hdr = some (BitVec.ofNat 16 c) ∧
    sum ≡ total ((words16 hdr.bytes).take 10) [MOD 65535] ∧
    sum ≤ total ((words16 hdr.bytes).take 10) ∧
    (0 < total ((words16 hdr.bytes).take 10) → 0 < sum) := by
  obtain ⟨sum, hfold, hlt, hmod, hpos, hle⟩ := fold_sum_spec (sum_words ((words16 hdr.bytes).take 10))
  have hlen : ((words16 hdr.bytes).take 10).length ≤ 65536 := (List.length_take_le 10 _).trans (by omega)
  rw [toNat_sum_words hlen] at hmod hpos hle
  have hnot : (~~~sum).setWidth 16 = BitVec.ofNat 16 (65535 - sum.toNat) := by
    rw [← BitVec.toNat_inj, BitVec.toNat_setWidth, BitVec.toNat_not, BitVec.toNat_ofNat]
    omega
  refine ⟨sum.toNat, 65535 - sum.toNat, by omega, ?_, hmod, hle, hpos⟩
  rw [ip_checksum, hfold, Option.map_some, hnot]

theorem ip_checksum_check (hdr : Iphdr) :
    ∃ c, ip_checksum { hdr with check := 0 } = some c ∧
      ip_checksum { hdr with check := c } = some 0 := by
  obtain ⟨sum, c, hsum, hc, hmod, hle, -⟩ := ip_checksum_spec { hdr with check := 0 }
  refine ⟨_, hc, ?_⟩
  obtain ⟨sum', c', hsum', hc', hmod', -, hpos'⟩ :=
    ip_checksum_spec { hdr with check := BitVec.ofNat 16 c }
  obtain ⟨n, hn⟩ : ∃ n, n = total (Iphdr.before hdr) + total (Iphdr.after hdr) := ⟨_, rfl⟩
  have htotal : total ((words16 ({ hdr with check := 0 } : Iphdr).bytes).take 10) = n := by
    rw [total_words, hn]
    rfl
  have htotal' : total ((words16 ({ hdr with check := BitVec.ofNat 16 c } : Iphdr).bytes).take 10) =
      n + c := by
    rw [total_words, BitVec.toNat_ofNat, Nat.mod_eq_of_lt (by omega), hn]
    exact Nat.add_right_comm _ _ _
  rw [htotal] at hmod hle
  rw [htotal'] at hmod' hpos'
  -- The folded sum and the checksum are 65535 together, and so are 0 modulo 65535.
  have hzero : sum' ≡ 0 [MOD 65536 - 1] := by
    have : n + c ≡ sum + c [MOD 65535] := hmod.symm.add_right c
    rw [hsum] at this
    exact hmod'.trans this
  have hlast : sum' = 65535 := eq_last (hpos' (by omega)) (by omega) hzero
  rw [hc', show c' = 0 by omega]
  rfl

def sentHeader (net_ip dest_ip : BitVec 32) (protocol : BitVec 8) (len : BitVec 32)
    (check : BitVec 16) : Iphdr :=
  { version := 4, ihl := 5, tos := 0, tot_len := (20 + len).setWidth 16, id := 1, frag_off := 0, ttl := 64
    protocol := protocol, saddr := net_ip, daddr := dest_ip, check := check }

theorem ip_header_verifies (net_ip dest_ip : BitVec 32) (protocol : BitVec 8) (len : BitVec 32) :
    ∃ check, ip_header net_ip dest_ip protocol len =
      some (sentHeader net_ip dest_ip protocol len check) ∧
      ip_checksum (sentHeader net_ip dest_ip protocol len check) = some 0 := by
  obtain ⟨check, hcheck, hzero⟩ := ip_checksum_check (sentHeader net_ip dest_ip protocol len 0)
  refine ⟨check, ?_, hzero⟩
  change (ip_checksum (sentHeader net_ip dest_ip protocol len 0)).map _ = _
  change ip_checksum (sentHeader net_ip dest_ip protocol len 0) = _ at hcheck
  rw [hcheck]
  rfl

/-- A header stored with its checksum has the checksum 0, and no sum wraps on the way. -/
theorem ip_checksum_verifies (hdr : Iphdr) :
    (∃ c, ip_checksum { hdr with check := 0 } = some c ∧
      ip_checksum { hdr with check := c } = some 0) ∧
      (∀ k, (sum_words ((words16 hdr.bytes).take k)).toNat = total ((words16 hdr.bytes).take k)) ∧
      (∃ sum, fold_sum 3 (sum_words ((words16 hdr.bytes).take 10)) = some sum ∧ sum.toNat < 65536) ∧
      ∀ sum : BitVec 32,
        ((sum &&& 0xFFFF#32) + (sum >>> 16)).toNat =
          (sum &&& 0xFFFF#32).toNat + (sum >>> 16).toNat := by
  refine ⟨ip_checksum_check hdr, ?_, ?_, fun sum => (toNat_fold sum).1⟩
  · intro k
    refine toNat_sum_words ((List.length_take_le' k _).trans ?_)
    rw [words16_bytes]
    exact (show 10 ≤ 65536 by decide)
  · obtain ⟨sum, hfold, hfolded⟩ := fold_sum_spec (sum_words ((words16 hdr.bytes).take 10))
    exact ⟨sum, hfold, hfolded.lt⟩

end Relis.Checksum
