import Mathlib.Tactic.Abel
import Relis.Code.Asm
import Relis.Lib.Stack

/-! # Sequences of pushes and pops -/

open Relis.Bytes Relis.Stack Relis.Code

namespace Relis.Asm

variable {c : Cpu} {r r' : Reg} {v : BitVec 64} {rs : List Reg}

/-! ## Single steps -/

@[simp] theorem set_reg_self : (c.set r v).reg r = v := Function.update_self ..

theorem set_reg_of_ne (h : r' ≠ r) : (c.set r v).reg r' = c.reg r' := Function.update_of_ne h ..

@[simp] theorem set_mem : (c.set r v).mem = c.mem := rfl

@[simp] theorem push_mem : (c.push v).mem = write64 c.mem (c.reg .rsp - 8).toNat v := rfl

@[simp] theorem push_rsp : (c.push v).reg .rsp = c.reg .rsp - 8 :=
  set_reg_self (c := c) (r := .rsp)

theorem push_reg (h : r ≠ .rsp) : (c.push v).reg r = c.reg r := set_reg_of_ne (c := c) h

@[simp] theorem exec_nil : exec [] c = c := rfl

@[simp] theorem exec_cons (i : Instr) (code : List Instr) :
    exec (i :: code) c = exec code (i.exec c) := rfl

theorem exec_append (code code' : List Instr) : exec (code ++ code') c = exec code' (exec code c) :=
  List.foldl_append

theorem add_words (top : BitVec 64) {i n : Nat} (h : i ≤ n) :
    top - BitVec.ofNat 64 (8 * n) + BitVec.ofNat 64 (8 * i) =
      top - BitVec.ofNat 64 (8 * (n - i)) := by
  rw [show 8 * n = 8 * (n - i) + 8 * i by omega, BitVec.ofNat_add]
  abel

/-! ## Pushes -/

structure Pushed (c : Cpu) (vs : List (BitVec 64)) (c' : Cpu) : Prop where
  mem : c'.mem = pushed (c.reg .rsp) c.mem vs
  rsp : c'.reg .rsp = c.reg .rsp - BitVec.ofNat 64 (8 * vs.length)
  reg : ∀ r, r ≠ .rsp → c'.reg r = c.reg r

theorem Pushed.refl (c : Cpu) : Pushed c [] c := ⟨rfl, by simp, fun _ _ => rfl⟩

theorem Pushed.trans {c1 c2 : Cpu} {vs ws : List (BitVec 64)} (h1 : Pushed c vs c1)
    (h2 : Pushed c1 ws c2) : Pushed c (vs ++ ws) c2 := by
  refine ⟨?_, ?_, fun r hr => (h2.reg r hr).trans (h1.reg r hr)⟩
  · rw [h2.mem, h1.mem, h1.rsp, pushed_append]
  · rw [h2.rsp, h1.rsp, List.length_append, Nat.mul_add, BitVec.ofNat_add, sub_sub]

theorem pushed_one (c : Cpu) (v : BitVec 64) : Pushed c [v] (c.push v) :=
  ⟨rfl, push_rsp, fun _ hr => push_reg hr⟩

theorem Pushed.of_same {c1 c2 : Cpu} {vs : List (BitVec 64)} (h : Pushed c vs c1)
    (hmem : c2.mem = c1.mem) (hreg : c2.reg = c1.reg) : Pushed c vs c2 := by
  refine ⟨hmem.trans h.mem, ?_, ?_⟩
  · rw [hreg, h.rsp]
  · rw [hreg]
    exact h.reg

theorem pushed_qwords (vs : List (BitVec 64)) (c : Cpu) :
    Pushed c vs (exec (vs.map .push_qword) c) := by
  induction vs generalizing c with
  | nil => exact .refl c
  | cons v vs ih => exact (pushed_one c v).trans (ih (c.push v))

theorem pushed_regs (rs : List Reg) (hrs : Reg.rsp ∉ rs) (c : Cpu) :
    Pushed c (rs.map c.reg) (exec (rs.map .push) c) := by
  induction rs generalizing c with
  | nil => exact .refl c
  | cons r rs ih =>
    rw [List.mem_cons, not_or] at hrs
    have htail : rs.map (c.push (c.reg r)).reg = rs.map c.reg := by
      apply List.map_congr_left
      intro q hq
      apply push_reg
      rintro rfl
      exact hrs.2 hq
    have hrest := ih hrs.2 (c.push (c.reg r))
    rw [htail] at hrest
    exact (pushed_one c (c.reg r)).trans hrest

/-! ## Pops -/

structure Popped (c : Cpu) (rs : List Reg) (c' : Cpu) : Prop where
  mem : c'.mem = c.mem
  rsp : c'.reg .rsp = c.reg .rsp + BitVec.ofNat 64 (8 * rs.length)
  loaded : ∀ i r, rs[i]? = some r → c'.reg r = read64 c.mem (c.reg .rsp + BitVec.ofNat 64 (8 * i)).toNat
  reg : ∀ r, r ≠ .rsp → r ∉ rs → c'.reg r = c.reg r

theorem popped_regs (rs : List Reg) (hnodup : rs.Nodup) (hrs : Reg.rsp ∉ rs) (c : Cpu) :
    Popped c rs (exec (rs.map .pop) c) := by
  induction rs generalizing c with
  | nil => exact ⟨rfl, by simp, by simp, fun _ _ _ => rfl⟩
  | cons r rs ih =>
    rw [List.nodup_cons] at hnodup
    rw [List.mem_cons, not_or] at hrs
    have hrest := ih hnodup.2 hrs.2 ((Instr.pop r).exec c)
    have hrsp : ((Instr.pop r).exec c).reg .rsp = c.reg .rsp + 8 := by
      rw [Instr.exec, set_reg_of_ne hrs.1, Cpu.drop, set_reg_self]
    have hadd : ∀ i, c.reg .rsp + 8 + BitVec.ofNat 64 (8 * i) =
        c.reg .rsp + BitVec.ofNat 64 (8 * (i + 1)) := by
      intro i
      rw [show 8 * (i + 1) = 8 + 8 * i by omega, BitVec.ofNat_add, add_assoc]
      rfl
    refine ⟨hrest.mem, ?_, ?_, ?_⟩
    · rw [List.map_cons, exec_cons, hrest.rsp, hrsp, hadd, List.length_cons]
    · intro i q hq
      cases i with
      | zero =>
        obtain rfl : r = q := by simpa using hq
        rw [List.map_cons, exec_cons, hrest.reg r (Ne.symm hrs.1) hnodup.1, Instr.exec, set_reg_self]
        simp [Cpu.top]
      | succ i =>
        rw [List.map_cons, exec_cons, hrest.loaded i q (by simpa using hq), hrsp, hadd]
        rfl
    · intro q hq hmem
      rw [List.mem_cons, not_or] at hmem
      rw [List.map_cons, exec_cons, hrest.reg q hq hmem.2, Instr.exec, set_reg_of_ne hmem.1, Cpu.drop,
        set_reg_of_ne hq]

end Relis.Asm
