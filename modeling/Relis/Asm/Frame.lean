import Relis.Asm.Exec

/-!
# The frame of an interrupt

The processor, the stub and the common code push 22 words, which are `struct registers`.
-/

open Relis.Bytes Relis.Stack Relis.Code

namespace Relis.Asm

def registers (c : Cpu) (int_no err_code : BitVec 64) : Registers where
  r15 := c.reg .r15
  r14 := c.reg .r14
  r13 := c.reg .r13
  r12 := c.reg .r12
  r11 := c.reg .r11
  r10 := c.reg .r10
  r9 := c.reg .r9
  r8 := c.reg .r8
  rbp := c.reg .rbp
  rdi := c.reg .rdi
  rsi := c.reg .rsi
  rdx := c.reg .rdx
  rcx := c.reg .rcx
  rbx := c.reg .rbx
  rax := c.reg .rax
  int_no := int_no
  err_code := err_code
  rip := c.rip
  cs := c.cs.setWidth 64
  rflags := c.rflags
  rsp := c.reg .rsp
  ss := c.ss.setWidth 64

variable {c : Cpu} {vector : Nat} {rsp0 err_code return_address p : BitVec 64}
  {regs : Registers} {m : Mem}

theorem read_of_words
    (h : ∀ i v, regs.words[i]? = some v → read64 m (p + BitVec.ofNat 64 (8 * i)).toNat = v) :
    Registers.read m p = regs := by
  unfold Registers.read
  simp only [h 0 regs.r15 rfl, h 1 regs.r14 rfl, h 2 regs.r13 rfl, h 3 regs.r12 rfl,
    h 4 regs.r11 rfl, h 5 regs.r10 rfl, h 6 regs.r9 rfl, h 7 regs.r8 rfl, h 8 regs.rbp rfl,
    h 9 regs.rdi rfl, h 10 regs.rsi rfl, h 11 regs.rdx rfl, h 12 regs.rcx rfl, h 13 regs.rbx rfl,
    h 14 regs.rax rfl, h 15 regs.int_no rfl, h 16 regs.err_code rfl, h 17 regs.rip rfl,
    h 18 regs.cs rfl, h 19 regs.rflags rfl, h 20 regs.rsp rfl, h 21 regs.ss rfl]

theorem read_pushed (top : BitVec 64) (m : Mem) (regs : Registers) (ws : List (BitVec 64))
    (hws : ws.length < 100) :
    Registers.read (pushed top m (regs.words.reverse ++ ws)) (top - BitVec.ofNat 64 (8 * 22)) =
      regs := by
  have hlength : regs.words.reverse.length = 22 := rfl
  apply read_of_words
  intro i v hv
  obtain ⟨hi, -⟩ := List.getElem?_eq_some_iff.mp hv
  have hi' : i < 22 := hi
  have hrev : (regs.words.reverse ++ ws)[21 - i]? = some v := by
    rw [List.getElem?_append_left (by omega), List.getElem?_reverse (by change 21 - i < 22; omega)]
    rwa [show regs.words.length - 1 - (21 - i) = i by change 22 - 1 - (21 - i) = i; omega]
  have hlen : (regs.words.reverse ++ ws).length < 2 ^ 60 := by
    rw [List.length_append]
    omega
  have hread : read64 (pushed top m (regs.words.reverse ++ ws)) (word top (21 - i + 1)) = v :=
    read64_pushed hlen hrev
  rw [add_words top (show i ≤ 22 by omega)]
  rwa [show 21 - i + 1 = 22 - i by omega] at hread

/-! ## The code -/

def framePushes : List Reg :=
  [.rax, .rbx, .rcx, .rdx, .rsi, .rdi, .rbp, .r8, .r9, .r10, .r11, .r12, .r13, .r14, .r15]

def framePops : List Reg :=
  [.r15, .r14, .r13, .r12, .r11, .r10, .r9, .r8, .rbp, .rdi, .rsi, .rdx, .rcx, .rbx, .rax]

def errorOf (vector : Nat) (err_code : BitVec 64) : BitVec 64 :=
  if vector ∈ isr_err then err_code else 0

def stubWords (vector : Nat) : List (BitVec 64) :=
  if vector ∈ isr_err then [BitVec.ofNat 64 vector] else [0, BitVec.ofNat 64 vector]

theorem idt_cases {g : Gate} (h : idt vector = some g) :
    (∀ a, g.enter a = .cli :: (stubWords vector).map .push_qword ++ framePushes.map .push ++
      [.mov .rdi .rsp, .call a]) ∧ g.leave = framePops.map .pop ++ [.add .rsp 16, .iretq] := by
  have herr : ∀ v ∈ isr_err, v < 32 := by decide
  unfold idt at h
  unfold stubWords
  split_ifs at h with h1 h2 h3 h4
  · cases h
    rw [if_pos h2]
    exact ⟨fun _ => rfl, rfl⟩
  · cases h
    rw [if_neg h2]
    exact ⟨fun _ => rfl, rfl⟩
  · cases h
    rw [if_neg fun hmem => h1 (herr _ hmem)]
    exact ⟨fun _ => rfl, rfl⟩
  · cases h
    subst h4
    exact ⟨fun _ => rfl, rfl⟩

def frameTop (c : Cpu) (rsp0 : BitVec 64) : BitVec 64 :=
  (if c.cs &&& 3 = 0 then c.reg .rsp else rsp0) &&& ~~~0xF

def fivePushed (c : Cpu) (rsp0 : BitVec 64) : Cpu :=
  (((((c.set .rsp (frameTop c rsp0)).push (c.ss.setWidth 64)).push (c.reg .rsp)).push c.rflags).push
    (c.cs.setWidth 64)).push c.rip

theorem fivePushed_pushed (c : Cpu) (rsp0 : BitVec 64) : Pushed (c.set .rsp (frameTop c rsp0))
    [c.ss.setWidth 64, c.reg .rsp, c.rflags, c.cs.setWidth 64, c.rip] (fivePushed c rsp0) :=
  ((((pushed_one (c.set .rsp (frameTop c rsp0)) (c.ss.setWidth 64)).trans (pushed_one _ (c.reg .rsp))).trans
    (pushed_one _ c.rflags)).trans (pushed_one _ (c.cs.setWidth 64))).trans (pushed_one _ c.rip)

theorem interrupt_pushed (c : Cpu) (vector : Nat) (rsp0 err_code : BitVec 64) :
    Pushed (c.set .rsp (frameTop c rsp0))
      ([c.ss.setWidth 64, c.reg .rsp, c.rflags, c.cs.setWidth 64, c.rip] ++
        if vector ∈ isr_err then [err_code] else []) (c.interrupt vector rsp0 err_code) := by
  have hfive := fivePushed_pushed c rsp0
  have hmem : (c.interrupt vector rsp0 err_code).mem =
    (if vector ∈ isr_err then (fivePushed c rsp0).push err_code else fivePushed c rsp0).mem := rfl
  have hreg : (c.interrupt vector rsp0 err_code).reg =
    (if vector ∈ isr_err then (fivePushed c rsp0).push err_code else fivePushed c rsp0).reg := rfl
  generalize fivePushed c rsp0 = c5 at hfive hmem hreg
  split_ifs at hmem hreg ⊢
  · exact (hfive.trans (pushed_one c5 err_code)).of_same hmem hreg
  · exact (hfive.trans (.refl c5)).of_same hmem hreg

theorem stub_pushed (c : Cpu) (vector : Nat) (rsp0 err_code : BitVec 64) :
    Pushed (c.set .rsp (frameTop c rsp0))
      [c.ss.setWidth 64, c.reg .rsp, c.rflags, c.cs.setWidth 64, c.rip, errorOf vector err_code,
        BitVec.ofNat 64 vector]
      (exec (.cli :: (stubWords vector).map .push_qword) (c.interrupt vector rsp0 err_code)) := by
  have hcli := (interrupt_pushed c vector rsp0 err_code).of_same
    (show (Instr.cli.exec (c.interrupt vector rsp0 err_code)).mem = _ from rfl) rfl
  have hstub := hcli.trans (pushed_qwords (stubWords vector) _)
  rw [exec_cons]
  unfold stubWords errorOf at *
  split_ifs at hstub ⊢
  · exact hstub
  · exact hstub

/-- The frame is `struct registers` when the C function is called. -/
theorem enter_spec {g : Gate} (h : idt vector = some g) (c : Cpu) (rsp0 err_code return_address : BitVec 64) :
    let c1 := exec (g.enter return_address) (c.interrupt vector rsp0 err_code)
    Registers.read c1.mem (c1.reg .rdi) = registers c (BitVec.ofNat 64 vector)
      (errorOf vector err_code) ∧ c1.reg .rsp + 8 = c1.reg .rdi := by
  have hstub := stub_pushed c vector rsp0 err_code
  rw [(idt_cases h).1, exec_append, exec_append]
  generalize exec (.cli :: (stubWords vector).map .push_qword) (c.interrupt vector rsp0 err_code) =
    c1 at hstub ⊢
  have hpush := hstub.trans (pushed_regs framePushes (by decide) c1)
  have hregs : framePushes.map c1.reg = framePushes.map c.reg := by
    apply List.map_congr_left
    intro r hr
    have hne : r ≠ .rsp := by
      rintro rfl
      exact absurd hr (by decide)
    rw [hstub.reg r hne, set_reg_of_ne hne]
  rw [hregs] at hpush
  generalize exec (framePushes.map .push) c1 = c2 at hpush ⊢
  have hmem : (c2.push return_address).mem = pushed (frameTop c rsp0) c.mem
      ((registers c (BitVec.ofNat 64 vector) (errorOf vector err_code)).words.reverse ++
        [return_address]) :=
    (hpush.trans (pushed_one c2 return_address)).mem
  have hrsp : c2.reg .rsp = frameTop c rsp0 - BitVec.ofNat 64 (8 * 22) := hpush.rsp
  have hread := read_pushed (frameTop c rsp0) c.mem
    (registers c (BitVec.ofNat 64 vector) (errorOf vector err_code)) [return_address] (by simp)
  rw [← hmem, ← hrsp] at hread
  refine ⟨hread, ?_⟩
  exact sub_add_cancel _ _

/-! ## The return -/

/-- The selectors take the low 16 bits of their words. -/
def loaded (regs : Registers) : Registers :=
  { regs with cs := (regs.cs.setWidth 16).setWidth 64, ss := (regs.ss.setWidth 16).setWidth 64 }

theorem setWidth_selector (v : BitVec 16) :
    ((v.setWidth 64).setWidth 16).setWidth 64 = v.setWidth 64 := by
  apply BitVec.eq_of_toNat_eq
  simp only [BitVec.toNat_setWidth]
  omega

theorem drop_top : c.drop.top = read64 c.mem (c.reg .rsp + 8).toNat := by
  rw [Cpu.top, Cpu.drop, set_reg_self, set_mem]

theorem drop_rsp : c.drop.reg .rsp = c.reg .rsp + 8 := set_reg_self

theorem drop_mem : c.drop.mem = c.mem := rfl

theorem iretq_spec (word : Nat → BitVec 64)
    (hword : ∀ i, read64 c.mem (c.reg .rsp + BitVec.ofNat 64 (8 * i)).toNat = word i) :
    let c' := Instr.iretq.exec c
    c'.rip = word 0 ∧ c'.cs = (word 1).setWidth 16 ∧ c'.rflags = word 2 ∧ c'.reg .rsp = word 3 ∧
      c'.ss = (word 4).setWidth 16 ∧ ∀ r, r ≠ .rsp → c'.reg r = c.reg r := by
  have h0 : c.top = word 0 := by
    rw [← hword 0, Cpu.top]
    simp
  have h1 : c.drop.top = word 1 := by
    rw [← hword 1, drop_top]
    rfl
  have h2 : c.drop.drop.top = word 2 := by
    rw [← hword 2, drop_top, drop_rsp, drop_mem, add_assoc]
    rfl
  have h3 : c.drop.drop.drop.top = word 3 := by
    rw [← hword 3, drop_top, drop_rsp, drop_mem, drop_rsp, drop_mem, add_assoc, add_assoc]
    rfl
  have h4 : c.drop.drop.drop.drop.top = word 4 := by
    rw [← hword 4, drop_top, drop_rsp, drop_mem, drop_rsp, drop_mem, drop_rsp, drop_mem,
      add_assoc, add_assoc, add_assoc]
    rfl
  refine ⟨h0, congrArg (BitVec.setWidth 16) h1, h2, ?_, congrArg (BitVec.setWidth 16) h4,
    fun r hr => set_reg_of_ne hr⟩
  rw [← h3]
  exact set_reg_self (c := c) (r := .rsp)

theorem leave_spec {g : Gate} (h : idt vector = some g) (c : Cpu) :
    let regs := Registers.read c.mem (c.reg .rsp)
    registers (exec g.leave c) regs.int_no regs.err_code = loaded regs := by
  intro regs
  have hpop := popped_regs framePops (by decide) (by decide) c
  rw [(idt_cases h).2, exec_append]
  generalize exec (framePops.map .pop) c = c1 at hpop ⊢
  rw [exec_cons, exec_cons, exec_nil]
  have hrsp : ((Instr.add .rsp 16).exec c1).reg .rsp = c1.reg .rsp + 16 := set_reg_self
  have hmem : ((Instr.add .rsp 16).exec c1).mem = c1.mem := rfl
  have hkeep : ∀ r, r ≠ .rsp → ((Instr.add .rsp 16).exec c1).reg r = c1.reg r :=
    fun r hr => set_reg_of_ne hr
  generalize (Instr.add .rsp 16).exec c1 = c2 at hrsp hmem hkeep ⊢
  obtain ⟨hrip, hcs, hrflags, hrsp', hss, hregs⟩ := iretq_spec (c := c2)
    (fun i => read64 c.mem (c.reg .rsp + BitVec.ofNat 64 (8 * (17 + i))).toNat) (by
      intro i
      rw [hrsp, hmem, hpop.mem, hpop.rsp, show 8 * (17 + i) = 8 * 15 + (16 + 8 * i) by omega,
        BitVec.ofNat_add,
        BitVec.ofNat_add, ← add_assoc, ← add_assoc]
      rfl)
  have hload : ∀ i r, framePops[i]? = some r → r ≠ .rsp →
      (Instr.iretq.exec c2).reg r = read64 c.mem (c.reg .rsp + BitVec.ofNat 64 (8 * i)).toNat := by
    intro i r hr hne
    rw [hregs r hne, hkeep r hne, hpop.loaded i r hr]
  generalize Instr.iretq.exec c2 = c3 at hrip hcs hrflags hrsp' hss hload ⊢
  unfold registers
  rw [hrip, hcs, hrflags, hrsp', hss, hload 0 .r15 rfl (by decide), hload 1 .r14 rfl (by decide),
    hload 2 .r13 rfl (by decide), hload 3 .r12 rfl (by decide), hload 4 .r11 rfl (by decide),
    hload 5 .r10 rfl (by decide), hload 6 .r9 rfl (by decide), hload 7 .r8 rfl (by decide),
    hload 8 .rbp rfl (by decide), hload 9 .rdi rfl (by decide), hload 10 .rsi rfl (by decide),
    hload 11 .rdx rfl (by decide), hload 12 .rcx rfl (by decide), hload 13 .rbx rfl (by decide),
    hload 14 .rax rfl (by decide)]
  rfl

/-- The C function gets the interrupted context as `struct registers`. When it has returned, the
processor goes on with what is in the struct then. -/
theorem interrupt_returns {g : Gate} (hgate : idt vector = some g) (c : Cpu)
    (rsp0 err_code return_address : BitVec 64) :
    let c1 := exec (g.enter return_address) (c.interrupt vector rsp0 err_code)
    Registers.read c1.mem (c1.reg .rdi) =
        registers c (BitVec.ofNat 64 vector) (if vector ∈ isr_err then err_code else 0) ∧
      ∀ c2 : Cpu, c2.reg .rsp = c1.reg .rsp + 8 →
        let regs := Registers.read c2.mem (c1.reg .rdi)
        registers (exec g.leave c2) regs.int_no regs.err_code = loaded regs := by
  obtain ⟨hread, hrsp⟩ := enter_spec hgate c rsp0 err_code return_address
  refine ⟨hread, fun c2 hc2 => ?_⟩
  rw [← hrsp, ← hc2]
  exact leave_spec hgate c2

/-- A system call with a handler that only changes `rax`. -/
theorem interrupt_returns_small : ∃ g, idt 128 = some g ∧ ∀ (c c2 : Cpu) (v : BitVec 64),
    let c1 := exec (g.enter 0) (c.interrupt 128 0 0)
    c2.reg .rsp = c1.reg .rsp + 8 →
    Registers.read c2.mem (c1.reg .rdi) = { Registers.read c1.mem (c1.reg .rdi) with rax := v } →
    registers (exec g.leave c2) 128#64 0 = { registers c 128#64 0 with rax := v } := by
  refine ⟨_, rfl, ?_⟩
  intro c c2 v c1 hrsp hread
  obtain ⟨henter, hleave⟩ := interrupt_returns (show idt 128 = some _ from rfl) c 0 0 0
  have hend := hleave c2 hrsp
  rw [hread, henter] at hend
  rw [if_neg (by decide)] at hend
  unfold loaded at hend
  simpa only [registers, setWidth_selector] using hend

end Relis.Asm
