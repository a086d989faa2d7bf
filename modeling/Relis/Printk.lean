import Mathlib.Tactic
import Relis.Code.Printk
import Relis.Lib.Numeral
import Relis.Vga

/-!
# What `printk` prints

The least integer has no numeral in `print_int`, and a `%` at the end takes the loop beyond
the format.
-/

open Relis.Code Relis.Bytes Relis.Numeral

namespace Relis.Printk

variable {fuel : Nat} {x : List Nat × Console}

/-! ## The format -/

/-- `cut` is a `%` with nothing behind it. -/
inductive Piece
  | text (c : BitVec 8)
  | int
  | str
  | hex
  | char
  | percent
  | other (c : BitVec 8)
  | cut
  deriving DecidableEq

def directive (c : BitVec 8) : Piece :=
  if c = 100 then .int else if c = 115 then .str else if c = 120 then .hex
  else if c = 99 then .char else if c = 37 then .percent else .other c

def pieces : List (BitVec 8) → List Piece
  | [] => []
  | b :: f =>
    if b = 37 then
      match f with
      | [] => [.cut]
      | c :: f => directive c :: pieces f
    else .text b :: pieces f

def decimal (n : BitVec 32) : List (BitVec 8) :=
  if n.toInt < 0 then 45 :: numeral 10 n.toInt.natAbs else numeral 10 n.toInt.natAbs

def hexadecimal (n : BitVec 32) : List (BitVec 8) := [48, 120] ++ numeral 16 n.toNat

/-- The text of a piece, and the arguments it leaves. `dec` are the decimal numerals. -/
def Piece.expand (dec : BitVec 32 → List (BitVec 8)) :
    Piece → List Arg → Option (List (BitVec 8) × List Arg)
  | .text c, args => some ([c], args)
  | .int, .int n :: args => some (dec n, args)
  | .str, .str s :: args => some (s.bytes, args)
  | .hex, .int n :: args => some (hexadecimal n, args)
  | .char, .int n :: args => some ([n.setWidth 8], args)
  | .percent, args => some ([37], args)
  | .other c, args => some ([37, c], args)
  | .cut, args => some ([37], args)
  | _, _ => none

/-- The text of a format, or nothing if the arguments do not match its directives. -/
def expand (dec : BitVec 32 → List (BitVec 8)) : List Piece → List Arg → Option (List (BitVec 8))
  | [], [] => some []
  | [], _ :: _ => none
  | p :: ps, args =>
    match p.expand dec args with
    | none => none
    | some (text, args) => (expand dec ps args).map (text ++ ·)

def ints : List Piece → List Arg → List (BitVec 32)
  | .int :: ps, .int n :: args => n :: ints ps args
  | .str :: ps, _ :: args => ints ps args
  | .hex :: ps, _ :: args => ints ps args
  | .char :: ps, _ :: args => ints ps args
  | _ :: ps, args => ints ps args
  | [], _ => []

def Terminated (fmt : Mem) (i : Nat) : List (BitVec 8) → Prop
  | [] => fmt i = 0
  | c :: f => fmt i = c ∧ c ≠ 0 ∧ Terminated fmt (i + 1) f

/-! ## The numerals -/

def printed (n : BitVec 32) : List (BitVec 8) := if n = 0x80000000 then [45] else decimal n

def parseInt (s : List (BitVec 8)) : Int :=
  if s.head? = some 45 then -(value 10 s.tail) else value 10 s

def parseHex (s : List (BitVec 8)) : Nat := value 16 (s.drop 2)

theorem parseInt_decimal (n : BitVec 32) : parseInt (decimal n) = n.toInt := by
  unfold parseInt decimal
  split_ifs with hneg hhead hhead
  · rw [List.tail_cons, value_numeral (by decide) (by decide)]
    omega
  · exact absurd rfl hhead
  · have := le_of_mem_numeral (by decide) (by decide) (List.mem_of_mem_head? hhead)
    simp at this
  · rw [value_numeral (by decide) (by decide)]
    omega

theorem parseHex_hexadecimal (n : BitVec 32) : parseHex (hexadecimal n) = n.toNat :=
  value_numeral (by decide) (by decide) n.toNat

theorem head_hexadecimal {n : BitVec 32} (hn : n ≠ 0) : ((hexadecimal n).drop 2).head? ≠ some 48 := by
  refine head_numeral (by decide) (by decide) fun h => hn ?_
  rw [← BitVec.toNat_inj]
  exact h

section Digits

variable {n : BitVec 32}

theorem slt_zero_iff (hn : n.toNat < 2 ^ 31) : BitVec.slt 0 n = true ↔ 0 < n.toNat := by
  rw [BitVec.slt_iff_toInt_lt, BitVec.toInt_eq_toNat_of_lt (x := n) (by omega)]
  simp

theorem sdiv_ten (hn : n.toNat < 2 ^ 31) : (n.sdiv 10).toNat = n.toNat / 10 := by
  have hmsb : n.msb = false := by rw [BitVec.msb_eq_false_iff_two_mul_lt]; omega
  rw [BitVec.sdiv_eq, hmsb, show (10 : BitVec 32).msb = false from rfl]
  simp

theorem srem_ten (hn : n.toNat < 2 ^ 31) : (n.srem 10).toNat = n.toNat % 10 := by
  have hmsb : n.msb = false := by rw [BitVec.msb_eq_false_iff_two_mul_lt]; omega
  rw [BitVec.srem_eq, hmsb, show (10 : BitVec 32).msb = false from rfl]
  simp

theorem int_digits_spec (room : Nat) (buf : List (BitVec 8)) (hn : n.toNat < 2 ^ 31)
    (hroom : n.toNat < 10 ^ room) :
    int_digits room n buf = some ((Nat.digits 10 n.toNat).reverse.map digitChar ++ buf) := by
  induction room generalizing n buf with
  | zero =>
    have hzero : n.toNat = 0 := by omega
    rw [int_digits, if_neg (by rw [slt_zero_iff hn]; omega), hzero]
    simp
  | succ room ih =>
    rw [int_digits]
    rcases Nat.eq_zero_or_pos n.toNat with hzero | hpos
    · rw [if_neg (by rw [slt_zero_iff hn]; omega), hzero]
      simp
    · have hchar : (n.srem 10 + 48).setWidth 8 = digitChar (n.toNat % 10) := by
        rw [← BitVec.toNat_inj, BitVec.toNat_setWidth, BitVec.toNat_add, srem_ten hn, digitChar,
          if_pos (Nat.mod_lt _ (by decide)), BitVec.toNat_ofNat]
        simp
        omega
      have hdiv := sdiv_ten hn
      rw [if_pos ((slt_zero_iff hn).mpr hpos), ih _ (by omega) (by rw [hdiv]; omega), hdiv, hchar,
        digits_reverse (by decide) hpos, List.append_assoc, List.singleton_append]

theorem hex_digits_spec (room : Nat) (buf : List (BitVec 8)) (hroom : n.toNat < 16 ^ room) :
    hex_digits room n buf = some ((Nat.digits 16 n.toNat).reverse.map digitChar ++ buf) := by
  induction room generalizing n buf with
  | zero =>
    have hzero : n.toNat = 0 := by omega
    have hn : n = 0 := by rw [← BitVec.toNat_inj]; exact hzero
    rw [hn]
    rfl
  | succ room ih =>
    rw [hex_digits]
    rcases Nat.eq_zero_or_pos n.toNat with hzero | hpos
    · have hn : n = 0 := by rw [← BitVec.toNat_inj]; exact hzero
      rw [hn]
      rfl
    · have hrem : (n % 16).toNat = n.toNat % 16 := BitVec.toNat_umod
      have hdiv : (n / 16).toNat = n.toNat / 16 := BitVec.toNat_udiv
      have hchar : (if n % 16 < 10 then n % 16 + 48 else n % 16 - 10 + 97).setWidth 8 =
          digitChar (n.toNat % 16) := by
        have hlt : n.toNat % 16 < 16 := Nat.mod_lt _ (by decide)
        have hten : n % 16 < 10 ↔ n.toNat % 16 < 10 := by rw [BitVec.lt_def, hrem]; rfl
        rw [← BitVec.toNat_inj, digitChar, BitVec.toNat_setWidth, BitVec.toNat_ofNat]
        by_cases hd : n.toNat % 16 < 10
        · rw [if_pos (hten.mpr hd), if_pos hd, BitVec.toNat_add, hrem]
          simp
          omega
        · rw [if_neg (hten.not.mpr hd), if_neg hd, BitVec.toNat_add, BitVec.toNat_sub, hrem]
          simp
          omega
      rw [if_pos (by rw [gt_iff_lt, BitVec.lt_def]; exact hpos)]
      dsimp only
      rw [ih _ (by rw [hdiv]; omega), hdiv, hchar, digits_reverse (by decide) hpos, List.append_assoc,
        List.singleton_append]

end Digits

variable {k : Console} {n : BitVec 32}

theorem print_string_append (k : Console) (s s' : List (BitVec 8)) :
    print_string k (s ++ s') = print_string (print_string k s) s' := List.foldl_append ..

theorem toNat_neg_int (hneg : n.toInt < 0) (hn : n ≠ 0x80000000) :
    (-n).toNat = n.toInt.natAbs ∧ n.toInt.natAbs < 2 ^ 31 := by
  have hne : n.toNat ≠ 2 ^ 31 := fun h => hn (by rw [← BitVec.toNat_inj]; exact h)
  have hlt := n.isLt
  rw [BitVec.toInt_eq_toNat_cond] at hneg ⊢
  rw [BitVec.toNat_neg]
  split_ifs at hneg ⊢ <;> omega

theorem print_int_spec (k : Console) (n : BitVec 32) :
    print_int k n = some (print_string k (printed n)) := by
  by_cases hmin : n = 0x80000000
  · rw [hmin]
    rfl
  by_cases hzero : n = 0
  · rw [hzero]
    rfl
  rw [print_int, if_neg hzero, printed, if_neg hmin, decimal]
  have habs : n.toInt.natAbs ≠ 0 := by
    rw [Ne, Int.natAbs_eq_zero, ← BitVec.toInt_zero (w := 32), BitVec.toInt_inj]
    exact hzero
  by_cases hneg : n.toInt < 0
  · have hslt : BitVec.slt n 0 = true := BitVec.slt_iff_toInt_lt.mpr hneg
    obtain ⟨hnat, hlt⟩ := toNat_neg_int hneg hmin
    rw [if_pos hslt, if_pos hneg, numeral, if_neg habs]
    dsimp only
    rw [int_digits_spec 16 [] (by omega) (by omega), hnat, List.append_nil]
    rfl
  · have hslt : ¬BitVec.slt n 0 = true := fun h => hneg (BitVec.slt_iff_toInt_lt.mp h)
    have hnat : n.toNat = n.toInt.natAbs ∧ n.toNat < 2 ^ 31 := by
      rw [BitVec.toInt_eq_toNat_cond] at hneg ⊢
      split_ifs at hneg ⊢ <;> omega
    rw [if_neg hslt, if_neg hneg, numeral, if_neg habs]
    dsimp only
    rw [int_digits_spec 16 [] (by omega) (by omega), hnat.1, List.append_nil]
    rfl

theorem print_hex_spec (k : Console) (n : BitVec 32) :
    print_hex k n = some (print_string k (hexadecimal n)) := by
  unfold print_hex hexadecimal numeral
  have hzero : n = 0 ↔ n.toNat = 0 := by rw [← BitVec.toNat_inj]; rfl
  split_ifs with hn hn' hn'
  · rfl
  · exact absurd (hzero.mp hn) hn'
  · exact absurd (hzero.mpr hn') hn
  · rw [hex_digits_spec 16 [] (n.isLt.trans (by decide)), List.append_nil, Option.map_some,
      print_string_append]
    rfl

/-! ## The loop -/

variable {fmt : Mem} {args args' : List Arg} {text f : List (BitVec 8)} {i : Nat} {reads : List Nat}

theorem printk_directive_eq (c : BitVec 8) (args : List Arg) (k : Console) :
    printk_directive c args k =
    ((directive c).expand printed args).map fun x => (x.2, print_string k x.1) := by
  unfold printk_directive directive
  split_ifs
  · rcases args with _ | ⟨n | s, args⟩
    · rfl
    · dsimp only
      rw [print_int_spec]
      rfl
    · rfl
  · rcases args with _ | ⟨n | s, args⟩ <;> rfl
  · rcases args with _ | ⟨n | s, args⟩
    · rfl
    · dsimp only
      rw [print_hex_spec]
      rfl
    · rfl
  · rcases args with _ | ⟨n | s, args⟩ <;> rfl
  · rfl
  · rfl

theorem directive_ne_cut (c : BitVec 8) : directive c ≠ .cut := by
  unfold directive
  split_ifs <;> simp

theorem expand_cons {dec : BitVec 32 → List (BitVec 8)} {q : Piece} {ps : List Piece}
    (h : expand dec (q :: ps) args = some text) : ∃ text1 args1 text2,
    q.expand dec args = some (text1, args1) ∧ expand dec ps args1 = some text2 ∧
      text = text1 ++ text2 := by
  rw [expand] at h
  cases hq : q.expand dec args with
  | none =>
    rw [hq] at h
    cases h
  | some x =>
    rw [hq] at h
    obtain ⟨text2, h2, rfl⟩ := Option.map_eq_some_iff.mp h
    exact ⟨x.1, x.2, text2, rfl, h2, rfl⟩

/-- One round for each piece and one more for the zero, which is at `n`. -/
theorem printk_loop_spec {n : Nat} (reads : List Nat) (k : Console) (hf : Terminated fmt i f)
    (hn : i + f.length = n) (hcut : .cut ∉ pieces f)
    (htext : expand printed (pieces f) args = some text) (hreads : ∀ r ∈ reads, r ≤ n) :
    ∃ reads', (∀ r ∈ reads', r ≤ n) ∧ ∀ fuel, printk_loop fmt fuel i reads args k =
      if (pieces f).length < fuel then some (reads', print_string k text) else none := by
  fun_induction pieces f generalizing i args text k reads with
  | case1 =>
    cases args with
    | cons a args => cases htext
    | nil =>
      cases htext
      refine ⟨i :: reads, List.forall_mem_cons.mpr ⟨hn.le, hreads⟩, fun fuel => ?_⟩
      cases fuel with
      | zero => rfl
      | succ fuel => exact if_pos hf
  | case2 => exact absurd List.mem_cons_self hcut
  | case3 c f ih =>
    obtain ⟨hb, -, hc, -, hf⟩ := hf
    obtain ⟨text1, args1, text2, hq, htext2, rfl⟩ := expand_cons htext
    rw [List.length_cons, List.length_cons] at hn
    obtain ⟨reads', hreads', hloop⟩ := ih ((i + 1) :: i :: reads) (print_string k text1) hf (by omega)
      (fun h => hcut (List.mem_cons_of_mem _ h)) htext2
      (List.forall_mem_cons.mpr ⟨by omega, List.forall_mem_cons.mpr ⟨by omega, hreads⟩⟩)
    refine ⟨reads', hreads', fun fuel => ?_⟩
    cases fuel with
    | zero => rfl
    | succ fuel =>
      rw [printk_loop, hb, if_neg (by decide), if_pos rfl, printk_directive_eq, hc, hq]
      simp only [Option.map_some, List.length_cons, Nat.add_lt_add_iff_right, print_string_append]
      exact hloop fuel
  | case4 b f hb ih =>
    obtain ⟨hb', hb0, hf⟩ := hf
    obtain ⟨text1, args1, text2, hq, htext2, rfl⟩ := expand_cons htext
    cases hq
    rw [List.length_cons] at hn
    obtain ⟨reads', hreads', hloop⟩ := ih (i :: reads) (print_char k b) hf (by omega)
      (fun h => hcut (List.mem_cons_of_mem _ h)) htext2 (List.forall_mem_cons.mpr ⟨by omega, hreads⟩)
    refine ⟨reads', hreads', fun fuel => ?_⟩
    cases fuel with
    | zero => rfl
    | succ fuel =>
      rw [printk_loop, hb', if_neg hb0, if_neg hb, hloop fuel]
      simp only [List.length_cons, Nat.add_lt_add_iff_right]
      rfl

theorem printk_loop_reads (h : printk_loop fmt fuel i reads args k = some x) :
    i ∈ x.1 ∧ ∀ r ∈ reads, r ∈ x.1 := by
  induction fuel generalizing i reads args k with
  | zero => cases h
  | succ fuel ih =>
    rw [printk_loop] at h
    split_ifs at h with h0 hpercent
    · cases h
      exact ⟨List.mem_cons_self, fun r hr => List.mem_cons_of_mem _ hr⟩
    · split at h
      · cases h
      · obtain ⟨-, hmem⟩ := ih h
        exact ⟨hmem _ (by simp), fun r hr => hmem r (by simp [hr])⟩
    · obtain ⟨-, hmem⟩ := ih h
      exact ⟨hmem _ (by simp), fun r hr => hmem r (by simp [hr])⟩

theorem printk_loop_cut {n : Nat} (hf : Terminated fmt i f) (hn : i + f.length = n)
    (hcut : .cut ∈ pieces f) (h : printk_loop fmt fuel i reads args k = some x) : n + 1 ∈ x.1 := by
  fun_induction pieces f generalizing i args k reads fuel with
  | case1 => cases hcut
  | case2 =>
    obtain ⟨hb, -, h0⟩ := hf
    cases fuel with
    | zero => cases h
    | succ fuel =>
      rw [printk_loop, hb, if_neg (by decide), if_pos rfl, h0] at h
      rw [← hn]
      exact (printk_loop_reads h).1
  | case3 c f ih =>
    obtain ⟨hb, -, -, -, hf⟩ := hf
    have hcut := (List.mem_cons.mp hcut).resolve_left (directive_ne_cut c).symm
    rw [List.length_cons, List.length_cons] at hn
    cases fuel with
    | zero => cases h
    | succ fuel =>
      rw [printk_loop, hb, if_neg (by decide), if_pos rfl] at h
      split at h
      · cases h
      · exact ih hf (by omega) hcut h
  | case4 b f hb ih =>
    obtain ⟨hb', hb0, hf⟩ := hf
    have hcut := (List.mem_cons.mp hcut).resolve_left (by simp)
    rw [List.length_cons] at hn
    cases fuel with
    | zero => cases h
    | succ fuel =>
      rw [printk_loop, hb', if_neg hb0, if_neg hb] at h
      exact ih hf (by omega) hcut h

/-! ## The whole call -/

theorem length_decimal_least : (printed 0x80000000).length < (decimal 0x80000000).length := by
  have hdecimal : decimal 0x80000000 = 45 :: numeral 10 2147483648 := rfl
  rw [hdecimal, List.length_cons]
  exact Nat.succ_lt_succ (length_numeral_pos 10 _)

theorem Piece.expand_cases {q : Piece} (h : q.expand decimal args = some (text, args')) :
    (∃ n, text = decimal n ∧ q.expand printed args = some (printed n, args') ∧
      ∀ ps, ints (q :: ps) args = n :: ints ps args') ∨
    q.expand printed args = some (text, args') ∧ ∀ ps, ints (q :: ps) args = ints ps args' := by
  rcases args with _ | ⟨n | s, args⟩ <;> cases q <;> cases h
  case cons.int.int.refl => exact .inl ⟨n, rfl, rfl, fun _ => rfl⟩
  all_goals exact .inr ⟨rfl, fun _ => rfl⟩

theorem expand_printed {ps : List Piece} (h : expand decimal ps args = some text) :
    ∃ text', expand printed ps args = some text' ∧ text'.length ≤ text.length ∧
      (0x80000000 ∉ ints ps args → text' = text) ∧
      (0x80000000 ∈ ints ps args → text'.length < text.length) := by
  induction ps generalizing args text with
  | nil =>
    cases args with
    | cons a args => cases h
    | nil => exact ⟨text, h, le_rfl, fun _ => rfl, fun h => by cases h⟩
  | cons q ps ih =>
    obtain ⟨text1, args1, text2, hq, htext2, rfl⟩ := expand_cons h
    obtain ⟨text2', htext2', hle2, hsame2, hless2⟩ := ih htext2
    have hprinted : ∀ {text1'}, q.expand printed args = some (text1', args1) →
        expand printed (q :: ps) args = some (text1' ++ text2') := by
      intro text1' hq'
      rw [expand, hq']
      simp only [htext2', Option.map_some]
    rcases Piece.expand_cases hq with ⟨n, rfl, hq', hints⟩ | ⟨hq', hints⟩
    · refine ⟨_, hprinted hq', ?_⟩
      rw [hints, List.length_append, List.length_append]
      by_cases hn : n = 0x80000000
      · have := length_decimal_least
        rw [hn]
        exact ⟨by omega, fun hnot => absurd List.mem_cons_self hnot, fun _ => by omega⟩
      · rw [printed, if_neg hn]
        refine ⟨by omega, fun hnot => ?_, fun hmem => ?_⟩
        · rw [hsame2 fun h => hnot (List.mem_cons_of_mem _ h)]
        · have := hless2 ((List.mem_cons.mp hmem).resolve_left (Ne.symm hn))
          omega
    · refine ⟨_, hprinted hq', ?_⟩
      rw [hints, List.length_append, List.length_append]
      refine ⟨by omega, fun hnot => by rw [hsame2 hnot], fun hmem => ?_⟩
      have := hless2 hmem
      omega

theorem print_string_serial (k : Console) (s : List (BitVec 8)) :
    (print_string k s).serial = k.serial ++ s := by
  induction s generalizing k with
  | nil => simp [print_string]
  | cons c s ih =>
    have := ih (print_char k c)
    simpa [print_string, print_char] using this

/-- The call reads the format up to its zero at most and sends the text. -/
def Prints (fmt : Mem) (f : List (BitVec 8)) (args : List Arg) (text : List (BitVec 8))
    (k : Console) : Prop :=
  ∃ fuel reads k', printk fuel fmt args k = some (reads, k') ∧ (∀ r ∈ reads, r ≤ f.length) ∧
    k'.serial = k.serial ++ relis_tag ++ text ++ [10]

def tagged (k : Console) : Console :=
  let k :=
    print_string { k with vga := terminal_setcolor k.vga VGA_COLOR_LIGHT_GREEN VGA_COLOR_BLACK }
    relis_tag
  { k with vga := terminal_setcolor k.vga VGA_COLOR_WHITE VGA_COLOR_BLACK }

theorem tagged_serial (k : Console) : (tagged k).serial = k.serial ++ relis_tag := by
  unfold tagged
  dsimp only
  rw [print_string_serial]

theorem printk_eq (fuel : Nat) (fmt : Mem) (args : List Arg) (k : Console) : printk fuel fmt args k =
    (printk_loop fmt fuel 0 [] args (tagged k)).map fun x => (x.1, print_char x.2 10) := rfl

theorem printk_spec (k : Console) (hf : Terminated fmt 0 f) (hcut : .cut ∉ pieces f)
    (htext : expand printed (pieces f) args = some text) :
    ∃ reads, (∀ r ∈ reads, r ≤ f.length) ∧ ∀ fuel, printk fuel fmt args k =
      if (pieces f).length < fuel then some (reads, print_string (tagged k) (text ++ [10])) else
        none := by
  obtain ⟨reads, hreads, hloop⟩ :=
    printk_loop_spec [] (tagged k) hf (Nat.zero_add _) hcut htext (fun r hr => by cases hr)
  refine ⟨reads, hreads, fun fuel => ?_⟩
  rw [printk_eq, hloop fuel, apply_ite (Option.map _), Option.map_some, Option.map_none,
    print_string_append]
  rfl

/-- `printk` prints what its format says, except for a `%` at the end and for the least integer.
-/
theorem printk_iff {fmt : Mem} {f text : List (BitVec 8)} {args : List Arg} (k : Console)
    (hf : Terminated fmt 0 f) (htext : expand decimal (pieces f) args = some text) :
    (Prints fmt f args text k ↔ .cut ∉ pieces f ∧ 0x80000000 ∉ ints (pieces f) args) ∧
      ∀ n, parseInt (decimal n) = n.toInt ∧ parseHex (hexadecimal n) = n.toNat ∧
        (n ≠ 0 → ((hexadecimal n).drop 2).head? ≠ some 48) := by
  refine ⟨?_, fun n => ⟨parseInt_decimal n, parseHex_hexadecimal n, head_hexadecimal⟩⟩
  obtain ⟨text', htext', -, hsame, hless⟩ := expand_printed htext
  constructor
  · rintro ⟨fuel, reads, k', hk, hreads, hserial⟩
    have hcut : .cut ∉ pieces f := by
      intro hcut
      rw [printk_eq] at hk
      obtain ⟨x, hloop, hx⟩ := Option.map_eq_some_iff.mp hk
      cases hx
      have := hreads _ (printk_loop_cut hf (Nat.zero_add _) hcut hloop)
      omega
    refine ⟨hcut, fun hmem => ?_⟩
    obtain ⟨reads', -, hprintk⟩ := printk_spec k hf hcut htext'
    rw [hprintk fuel] at hk
    split_ifs at hk
    cases hk
    rw [print_string_serial, tagged_serial] at hserial
    have := hless hmem
    have := congrArg List.length hserial
    simp only [List.length_append] at this
    omega
  · rintro ⟨hcut, hints⟩
    obtain ⟨reads', hreads', hprintk⟩ := printk_spec k hf hcut htext'
    refine ⟨(pieces f).length + 1, reads', _, by rw [hprintk, if_pos (Nat.lt_succ_self _)], hreads', ?_⟩
    rw [print_string_serial, tagged_serial, hsame hints]
    simp

def memory (bytes : List (BitVec 8)) : Mem := fun i => bytes.getD i 0

def emptyConsole : Console := ⟨⟨0, 0, 0, ⟨fun _ => 0, []⟩, 0⟩, []⟩

/-- `printk("n=%d%%", -5)` -/
theorem printk_negative :
    Terminated (memory [110, 61, 37, 100, 37, 37]) 0 [110, 61, 37, 100, 37, 37] ∧
    Prints (memory [110, 61, 37, 100, 37, 37]) [110, 61, 37, 100, 37, 37] [.int (-5)]
      [110, 61, 45, 53, 37]
      emptyConsole := by
  have hf : Terminated (memory [110, 61, 37, 100, 37, 37]) 0 [110, 61, 37, 100, 37, 37] := by
    simp [Terminated, memory]
  have hdecimal : decimal (-5) = [45, 53] := by
    have hnumeral : numeral 10 5 = [53] := by
      rw [numeral, if_neg (by decide), Nat.digits_of_lt 10 5 (by decide) (by decide)]
      rfl
    show 45 :: numeral 10 5 = _
    rw [hnumeral]
  have htext : expand decimal (pieces [110, 61, 37, 100, 37, 37]) [.int (-5)] =
      some [110, 61, 45, 53, 37] := by
    show some ([110, 61] ++ (decimal (-5) ++ [37])) = _
    rw [hdecimal]
    rfl
  exact ⟨hf, (printk_iff emptyConsole hf htext).1.mpr (by decide)⟩

/-- `printk("%d", INT_MIN)` prints only the sign. `printk("%")` takes the zero for a directive and
goes on behind it, where there is a `!`. -/
theorem printk_least_and_cut :
    (Terminated (memory [37, 100]) 0 [37, 100] ∧
      expand decimal (pieces [37, 100]) [.int 0x80000000] = some (decimal 0x80000000 ++ []) ∧
      ¬Prints (memory [37, 100]) [37, 100] [.int 0x80000000] (decimal 0x80000000 ++ []) emptyConsole ∧
      (printk 9 (memory [37, 100]) [.int 0x80000000] emptyConsole).map (fun x => x.2.serial) =
        some (relis_tag ++ [45] ++ [10])) ∧
    Terminated (memory [37, 0, 33]) 0 [37] ∧ expand decimal (pieces [37]) [] = some [37] ∧
      ¬Prints (memory [37, 0, 33]) [37] [] [37] emptyConsole ∧
      (printk 9 (memory [37, 0, 33]) [] emptyConsole).map (fun x => (x.1, x.2.serial)) =
        some ([3, 2, 1, 0], relis_tag ++ [37, 0, 33] ++ [10]) := by
  have hleast : Terminated (memory [37, 100]) 0 [37, 100] := by simp [Terminated, memory]
  have hcut : Terminated (memory [37, 0, 33]) 0 [37] := by simp [Terminated, memory]
  refine ⟨⟨hleast, rfl, ?_, rfl⟩, hcut, rfl, ?_, rfl⟩
  · rintro ⟨fuel, reads, k', hk, -, hserial⟩
    obtain ⟨reads', -, hprintk⟩ := printk_spec emptyConsole hleast (by decide)
      (show expand printed _ [.int 0x80000000] = some [45] from rfl)
    rw [hprintk fuel] at hk
    split_ifs at hk
    cases hk
    rw [print_string_serial, tagged_serial] at hserial
    have hless : ([45] : List (BitVec 8)).length < (decimal 0x80000000).length := length_decimal_least
    have := congrArg List.length hserial
    simp only [List.length_append] at this
    omega
  · rintro ⟨fuel, reads, k', hk, hreads, -⟩
    rw [printk_eq] at hk
    obtain ⟨x, hloop, hx⟩ := Option.map_eq_some_iff.mp hk
    cases hx
    have := hreads _ (printk_loop_cut hcut (Nat.zero_add _) (by decide) hloop)
    exact absurd this (by decide)

/-! ## The screen -/

/-- Since `k0` the screen and the port have been given the same characters. -/
def Mirrors (k0 : Console) (p0 : Vga.Page) (k : Console) : Prop :=
  ∃ sent, k.serial = k0.serial ++ sent ∧ Vga.Shows k.vga (sent.foldl Vga.Page.put p0)

variable {k0 : Console} {p0 : Vga.Page}

theorem Mirrors.setcolor (h : Mirrors k0 p0 k) (fg bg : BitVec 8) :
    Mirrors k0 p0 { k with vga := terminal_setcolor k.vga fg bg } := by
  obtain ⟨sent, hserial, hshows⟩ := h
  exact ⟨sent, hserial, hshows.setcolor fg bg⟩

theorem Mirrors.print_char (h : Mirrors k0 p0 k) (c : BitVec 8) : Mirrors k0 p0 (print_char k c) := by
  obtain ⟨sent, hserial, hshows⟩ := h
  refine ⟨sent ++ [c], ?_, ?_⟩
  · rw [Code.print_char, hserial, List.append_assoc]
  · rw [List.foldl_append]
    exact hshows.putchar c

theorem Mirrors.print_string (h : Mirrors k0 p0 k) (s : List (BitVec 8)) :
    Mirrors k0 p0 (print_string k s) := by
  induction s generalizing k with
  | nil => exact h
  | cons c s ih => exact ih (h.print_char c)

theorem Mirrors.loop (h : Mirrors k0 p0 k)
    (hloop : printk_loop fmt fuel i reads args k = some x) : Mirrors k0 p0 x.2 := by
  induction fuel generalizing i reads args k with
  | zero => cases hloop
  | succ fuel ih =>
    rw [printk_loop, printk_directive_eq] at hloop
    split_ifs at hloop
    · cases hloop
      exact h
    · cases hexpand : (directive (fmt (i + 1))).expand printed args with
      | none =>
        rw [hexpand] at hloop
        cases hloop
      | some y =>
        rw [hexpand] at hloop
        exact ih (h.print_string y.1) hloop
    · exact ih (h.print_char _) hloop

theorem Mirrors.printk (h : Mirrors k0 p0 k)
    (hk : Code.printk fuel fmt args k = some x) : Mirrors k0 p0 x.2 := by
  rw [printk_eq] at hk
  obtain ⟨y, hloop, rfl⟩ := Option.map_eq_some_iff.mp hk
  have htagged : Mirrors k0 p0 (tagged k) := ((h.setcolor _ _).print_string _).setcolor _ _
  exact (htagged.loop hloop).print_char 10

def printk_all (calls : List (Nat × Mem × List Arg)) (k : Console) : Option Console :=
  calls.foldlM (fun k c => (Code.printk c.1 c.2.1 c.2.2 k).map Prod.snd) k

theorem Mirrors.printk_all {calls : List (Nat × Mem × List Arg)} {k' : Console} (h : Mirrors k0 p0 k)
    (hk : Printk.printk_all calls k = some k') : Mirrors k0 p0 k' := by
  induction calls generalizing k with
  | nil =>
    cases hk
    exact h
  | cons c calls ih =>
    obtain ⟨k1, hcall, hcalls⟩ := Option.bind_eq_some_iff.mp hk
    obtain ⟨x, hx, rfl⟩ := Option.map_eq_some_iff.mp hcall
    exact ih (h.printk hx) hcalls

/-- After `terminal_clear`, whatever is printed by whatever formats, the screen has the last 25 rows
of what went out of the serial port. -/
theorem screen_shows_log (v0 : Code.Vga) (log : List (BitVec 8))
    {calls : List (Nat × Mem × List Arg)} {k' : Console}
    (hk : printk_all calls ⟨terminal_clear { v0 with screen := { v0.screen with written := [] } },
      log⟩ = some k') :
    ∃ sent, k'.serial = log ++ sent ∧ ∀ y < 25, ∀ x < 80,
      Vga.character (k'.vga.screen.cells (y * 80 + x)) =
        (sent.foldl Vga.Page.put .empty).lastRows y x := by
  have hclear := Vga.shows_clear v0
  generalize terminal_clear { v0 with screen := { v0.screen with written := [] } } = v at hk hclear
  have hstart : Mirrors ⟨v, log⟩ .empty ⟨v, log⟩ := ⟨[], (List.append_nil _).symm, hclear⟩
  obtain ⟨sent, hserial, hshows⟩ := hstart.printk_all hk
  refine ⟨sent, hserial, fun y hy x hx => ?_⟩
  rw [hshows.cells y hy x hx, Vga.Page.lastRows, Vga.Page.height]
  congr 1
  omega

/-- A format that is cut, and one that is not. -/
theorem cut_format_shown :
    ∃ k' sent, printk_all [(9, memory [37, 0, 33], []), (9, memory [111, 107], [])]
    ⟨terminal_clear emptyConsole.vga, []⟩ = some k' ∧ k'.serial = [] ++ sent ∧ ∀ y < 25, ∀ x < 80,
      Vga.character (k'.vga.screen.cells (y * 80 + x)) =
        (sent.foldl Vga.Page.put .empty).lastRows y x := by
  have hsome : (printk_all [(9, memory [37, 0, 33], []), (9, memory [111, 107], [])]
      ⟨terminal_clear emptyConsole.vga, []⟩).isSome := by
    decide +kernel
  obtain ⟨k', hk⟩ := Option.isSome_iff_exists.mp hsome
  obtain ⟨sent, hsent⟩ := screen_shows_log emptyConsole.vga [] hk
  exact ⟨k', sent, hk, hsent⟩

end Relis.Printk
