import Mathlib.Logic.Function.Basic
import Relis.Code.Task
import Relis.Lib.Bytes

/-!
# `switch.asm` and `isr_stubs.asm`

The instructions of the two files, as lists. `rip` is only kept where it is stored or
loaded. What the C functions do between their call and their return is left open.
-/

open Relis.Bytes

namespace Relis.Code

inductive Reg
  | rax | rbx | rcx | rdx | rsi | rdi | rbp | rsp | r8 | r9 | r10 | r11 | r12 | r13 | r14 | r15
  deriving DecidableEq

structure Cpu where
  reg : Reg → BitVec 64
  rip : BitVec 64
  cs : BitVec 16
  ss : BitVec 16
  rflags : BitVec 64
  mem : Mem

def Cpu.set (c : Cpu) (r : Reg) (v : BitVec 64) : Cpu := { c with reg := Function.update c.reg r v }

def Cpu.push (c : Cpu) (v : BitVec 64) : Cpu :=
  let rsp := c.reg .rsp - 8
  { c.set .rsp rsp with mem := write64 c.mem rsp.toNat v }

def Cpu.top (c : Cpu) : BitVec 64 := read64 c.mem (c.reg .rsp).toNat

def Cpu.drop (c : Cpu) : Cpu := c.set .rsp (c.reg .rsp + 8)

inductive Instr
  | cli
  | push (r : Reg)
  | push_qword (v : BitVec 64)
  | pop (r : Reg)
  | mov (dst src : Reg)
  /-- `mov [base], src` -/
  | store (base src : Reg)
  /-- `mov dst, [base]` -/
  | load (dst base : Reg)
  | add (r : Reg) (v : BitVec 64)
  /-- The call stores the address of the instruction after it. -/
  | call (return_address : BitVec 64)
  | ret
  | iretq

def Instr.exec (c : Cpu) : Instr → Cpu
  | .cli => { c with rflags := c.rflags &&& ~~~0x200 }
  | .push r => c.push (c.reg r)
  | .push_qword v => c.push v
  | .pop r => c.drop.set r c.top
  | .mov dst src => c.set dst (c.reg src)
  | .store base src => { c with mem := write64 c.mem (c.reg base).toNat (c.reg src) }
  | .load dst base => c.set dst (read64 c.mem (c.reg base).toNat)
  | .add r v => c.set r (c.reg r + v)
  | .call return_address => c.push return_address
  | .ret => { c.drop with rip := c.top }
  | .iretq =>
    let c1 := c.drop
    let c2 := c1.drop
    let c3 := c2.drop
    let c4 := c3.drop
    { c.set .rsp c3.top with
      rip := c.top
      cs := c1.top.setWidth 16
      rflags := c2.top
      ss := c4.top.setWidth 16 }

def exec (code : List Instr) (c : Cpu) : Cpu := code.foldl Instr.exec c

def Instr.accesses (c : Cpu) : Instr → List (BitVec 64)
  | .push _ | .push_qword _ | .call _ => [c.reg .rsp - 8]
  | .pop _ | .ret => [c.reg .rsp]
  | .store base _ | .load _ base => [c.reg base]
  | .iretq => (List.range 5).map fun i => c.reg .rsp + BitVec.ofNat 64 (8 * i)
  | .cli | .mov .. | .add .. => []

def accesses : List Instr → Cpu → List (BitVec 64)
  | [], _ => []
  | i :: code, c => i.accesses c ++ accesses code (i.exec c)

/-! ## `switch.asm` -/

def switch_to : List Instr := [
  .push .rbp, .push .rbx, .push .r12, .push .r13, .push .r14, .push .r15,
  .store .rdi .rsp,
  .load .rsp .rsi,
  .pop .r15, .pop .r14, .pop .r13, .pop .r12, .pop .rbx, .pop .rbp,
  .ret]

def call_switch_to (c : Cpu) (prev next return_address : BitVec 64) : Cpu :=
  exec (.call return_address :: switch_to) ((c.set .rdi prev).set .rsi next)

/-! ## `isr_stubs.asm` -/

def ISR_NOERR (n : BitVec 64) : List Instr := [.cli, .push_qword 0, .push_qword n]

def ISR_ERR (n : BitVec 64) : List Instr := [.cli, .push_qword n]

def isr_common (return_address : BitVec 64) : List Instr := [
  .push .rax, .push .rbx, .push .rcx, .push .rdx, .push .rsi, .push .rdi, .push .rbp, .push .r8,
  .push .r9, .push .r10, .push .r11, .push .r12, .push .r13, .push .r14, .push .r15,
  .mov .rdi .rsp, .call return_address]

def isr_common_return : List Instr := [
  .pop .r15, .pop .r14, .pop .r13, .pop .r12, .pop .r11, .pop .r10, .pop .r9, .pop .r8,
  .pop .rbp, .pop .rdi, .pop .rsi, .pop .rdx, .pop .rcx, .pop .rbx, .pop .rax,
  .add .rsp 16, .iretq]

/-- The second number is the vector. -/
def IRQ (_n vector : BitVec 64) : List Instr := [.cli, .push_qword 0, .push_qword vector]

def irq_common (return_address : BitVec 64) : List Instr := [
  .push .rax, .push .rbx, .push .rcx, .push .rdx, .push .rsi, .push .rdi, .push .rbp, .push .r8,
  .push .r9, .push .r10, .push .r11, .push .r12, .push .r13, .push .r14, .push .r15,
  .mov .rdi .rsp, .call return_address]

def irq_common_return : List Instr := [
  .pop .r15, .pop .r14, .pop .r13, .pop .r12, .pop .r11, .pop .r10, .pop .r9, .pop .r8,
  .pop .rbp, .pop .rdi, .pop .rsi, .pop .rdx, .pop .rcx, .pop .rbx, .pop .rax,
  .add .rsp 16, .iretq]

def isr128 : List Instr := [.cli, .push_qword 0, .push_qword 128]

def isr_err : List Nat := [8, 10, 11, 12, 13, 14, 17]

/-- The code up to the call of the C function, and the code after its return. -/
structure Gate where
  enter : BitVec 64 → List Instr
  leave : List Instr

def idt (vector : Nat) : Option Gate :=
  let n := BitVec.ofNat 64 vector
  if vector < 32 then
    let stub := if vector ∈ isr_err then ISR_ERR n else ISR_NOERR n
    some ⟨fun a => stub ++ isr_common a, isr_common_return⟩
  else if vector < 48 then some ⟨fun a => IRQ (n - 32) n ++ irq_common a, irq_common_return⟩
  else if vector = 128 then some ⟨fun a => isr128 ++ isr_common a, isr_common_return⟩
  else none

/-! ## The processor -/

/-- An interrupt through a gate of the kernel. Code of a user goes on with the stack of the TSS. The new
stack pointer is a multiple of 16. -/
def Cpu.interrupt (c : Cpu) (vector : Nat) (rsp0 err_code : BitVec 64) : Cpu :=
  let stack := if c.cs &&& 3 = 0 then c.reg .rsp else rsp0
  let c1 := c.set .rsp (stack &&& ~~~0xF)
  let c2 :=
    ((((c1.push (c.ss.setWidth 64)).push (c.reg .rsp)).push c.rflags).push (c.cs.setWidth 64)).push
    c.rip
  let c3 := if vector ∈ isr_err then c2.push err_code else c2
  { c3 with
    cs := 0x08
    ss := if c.cs &&& 3 = 0 then c.ss else 0
    rflags := c.rflags &&& ~~~0x200 }

def Registers.read (m : Mem) (p : BitVec 64) : Registers :=
  let field (i : Nat) : BitVec 64 := read64 m (p + BitVec.ofNat 64 (8 * i)).toNat
  { r15 := field 0
    r14 := field 1
    r13 := field 2
    r12 := field 3
    r11 := field 4
    r10 := field 5
    r9 := field 6
    r8 := field 7
    rbp := field 8
    rdi := field 9
    rsi := field 10
    rdx := field 11
    rcx := field 12
    rbx := field 13
    rax := field 14
    int_no := field 15
    err_code := field 16
    rip := field 17
    cs := field 18
    rflags := field 19
    rsp := field 20
    ss := field 21 }

end Relis.Code
