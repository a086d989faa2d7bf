import Mathlib.Data.BitVec

/-!
# `smp_boot.c`, `trampoline.asm` and `ap_boot.c`

Of the start of the other processors, what they read from the trampoline, which lies at 0x8000.
What is stored there before the loop stays, and the loops that only let time go by are left to
the order of events. Mode switches, messages and the local APIC of the started processor are
left out.
-/

namespace Relis.Code.Smp

def LAPIC_ICR_LO : BitVec 32 := 0x300
def LAPIC_ICR_HI : BitVec 32 := 0x310

/-- Where a processor is: before INIT, before its startup message, in front of an instruction of the
trampoline that reads a word, or in `ap_main`. -/
inductive Ap
  | off
  | wait_sipi
  | wait_cr3
  | load_cr3
  | load_stack (cr3 : BitVec 64)
  | load_entry (cr3 rsp : BitVec 64)
  | ap_main (cr3 rsp : BitVec 64)
  | online (cr3 rsp : BitVec 64)
  | halt
  deriving DecidableEq

/-- `pc` is where the first processor is in `smp_boot_apus`. -/
structure State where
  pc : Nat
  icr_hi : BitVec 32
  cr3_ptr : BitVec 64
  stack_ptr : BitVec 64
  ap_stacks : BitVec 64
  ap : Nat → Ap
  num_cpus : BitVec 32

/-- `&ap_stacks[i][16384]` -/
def State.stack (s : State) (i : Nat) : BitVec 64 := s.ap_stacks + BitVec.ofNat 64 (16384 * i + 16384)

inductive BspOp
  | store_stack (i : Nat)
  | lapic_write (offset val : BitVec 32)
  deriving DecidableEq

def send_apic_init (apic_id : BitVec 8) : List BspOp :=
  [.lapic_write LAPIC_ICR_HI (apic_id.setWidth 32 <<< 24), .lapic_write LAPIC_ICR_LO 0x4500]

def send_apic_startup (apic_id : BitVec 8) (vector : BitVec 32) : List BspOp :=
  [.lapic_write LAPIC_ICR_HI (apic_id.setWidth 32 <<< 24),
    .lapic_write LAPIC_ICR_LO (0x4600 ||| (vector &&& 0xFF))]

def smp_boot_apus : List BspOp :=
  [1, 2, 3].flatMap fun i => .store_stack i :: send_apic_init (BitVec.ofNat 8 i) ++
    send_apic_startup (BitVec.ofNat 8 i) 0x08 ++ send_apic_startup (BitVec.ofNat 8 i) 0x08

/-- The message of a write to the low register. Only a processor that has been reset takes a startup
message, and the vector is the page that it starts at. -/
def State.ipi (s : State) (icr_lo : BitVec 32) : State :=
  let j := (s.icr_hi >>> 24).toNat
  if (icr_lo >>> 8) &&& 7 = 5 then { s with ap := Function.update s.ap j .wait_sipi }
  else if (icr_lo >>> 8) &&& 7 = 6 ∧ (icr_lo &&& 0xFF) <<< 12 = 0x8000 ∧ s.ap j = .wait_sipi then
    { s with ap := Function.update s.ap j .wait_cr3 }
  else s

def State.exec (s : State) : BspOp → State
  | .store_stack i => { s with stack_ptr := s.stack i }
  | .lapic_write offset val =>
    if offset = LAPIC_ICR_HI then { s with icr_hi := val } else if offset =
      LAPIC_ICR_LO then s.ipi val else s

/-- CR3 gets 32 bits. `entry_ptr` is `ap_main`. -/
def Ap.step (s : State) : Ap → Ap
  | .wait_cr3 => if s.cr3_ptr.setWidth 32 = (0 : BitVec 32) then .wait_cr3 else .load_cr3
  | .load_cr3 => .load_stack ((s.cr3_ptr.setWidth 32).setWidth 64)
  | .load_stack cr3 => if s.stack_ptr = 0 then .halt else .load_entry cr3 s.stack_ptr
  | .load_entry cr3 rsp => .ap_main cr3 rsp
  | .ap_main cr3 rsp => .online cr3 rsp
  | a => a

inductive Event
  | bsp
  | ap (j : Nat)
  deriving DecidableEq

def step (s : State) : Event → State
  | .bsp => match smp_boot_apus[s.pc]? with
    | some op => { s.exec op with pc := s.pc + 1 }
    | none => s
  | .ap j => { s with
      ap := Function.update s.ap j ((s.ap j).step s)
      num_cpus := match s.ap j with
        | .ap_main .. => s.num_cpus + 1
        | _ => s.num_cpus }

def run (s : State) (events : List Event) : State := events.foldl step s

end Relis.Code.Smp
