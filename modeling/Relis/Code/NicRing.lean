import Relis.Code.PageAlloc

/-!
# `relis_nic/nic_netdev.c`

The descriptors, the registers of the receive ring, and what the device has written
to the buffers. `nic_rx_poll` is there twice: as it runs to its end, and cut into the
steps between which the device can move. Of its message only the packet is kept.
-/

open Relis.Run

namespace Relis.Code

def E1000_NUM_RX_DESC : BitVec 32 := 32

def sizeof_e1000_rx_desc : BitVec 32 := 16

structure E1000RxDesc where
  buffer_addr : BitVec 64
  length : BitVec 16
  csum : BitVec 16
  status : BitVec 8
  errors : BitVec 8
  special : BitVec 16

def E1000RxDesc.zero : E1000RxDesc where
  buffer_addr := 0
  length := 0
  csum := 0
  status := 0
  errors := 0
  special := 0

structure Packet where
  length : BitVec 16
  data : List (BitVec 8)
  deriving DecidableEq

/-- `buffer` is what the device has last written to the buffer of a descriptor. `accepted` are the
packets that the device has taken and `reported` those that the driver has seen. No code reads
these two. -/
structure Nic where
  rx_descs : Nat → E1000RxDesc
  rdbal : BitVec 32
  rdbah : BitVec 32
  rdlen : BitVec 32
  rdh : BitVec 32
  rdt : BitVec 32
  rctl : BitVec 32
  buffer : Nat → List (BitVec 8)
  accepted : List Packet
  reported : List Packet

def Nic.set_desc (nic : Nic) (i : Nat) (d : E1000RxDesc) : Nic :=
  { nic with rx_descs := Function.update nic.rx_descs i d }

/-- One turn of the loop of `nic_rx_init`. -/
def rx_init_desc (i : Nat) (x : Nic × Mm) : Except Halt (Nic × Mm) := do
  let (buf_phys, s) ← alloc_page x.2
  return (x.1.set_desc i { x.1.rx_descs i with buffer_addr := buf_phys, status := 0 }, s)

def nic_rx_init (nic : Nic) (s : Mm) : Except Halt (Nic × Mm) := do
  let (phys_descs, s) ← alloc_page s
  let nic := { nic with rx_descs := fun _ => .zero, accepted := [], reported := [] }
  let (nic, s) ← loop 0 E1000_NUM_RX_DESC.toNat rx_init_desc (nic, s)
  return ({ nic with
    rdbal := phys_descs.setWidth 32
    rdbah := (phys_descs >>> 32).setWidth 32
    rdlen := E1000_NUM_RX_DESC * sizeof_e1000_rx_desc
    rdh := 0
    rdt := E1000_NUM_RX_DESC - 1
    rctl := 1 <<< 1 ||| 1 <<< 4 }, s)

def next_tail (nic : Nic) : BitVec 32 := (nic.rdt + 1) % E1000_NUM_RX_DESC

/-- `status & 0x01` -/
def Nic.done (nic : Nic) (i : Nat) : Bool := (nic.rx_descs i).status &&& 0x01 ≠ 0

/-- What the driver finds at a descriptor. -/
def Nic.packet (nic : Nic) (i : Nat) : Packet := ⟨(nic.rx_descs i).length, nic.buffer i⟩

def rx_report (nic : Nic) (next : BitVec 32) : Nic :=
  { nic with reported := nic.reported ++ [nic.packet next.toNat] }

def rx_clear (nic : Nic) (next : BitVec 32) : Nic :=
  nic.set_desc next.toNat { nic.rx_descs next.toNat with status := 0 }

def rx_release (nic : Nic) (next : BitVec 32) : Nic := { nic with rdt := next }

def nic_rx_poll (nic : Nic) : Nic :=
  let next := next_tail nic
  if nic.done next.toNat then rx_release (rx_clear (rx_report nic next) next) next else nic

/-- The device takes a packet, if it has a descriptor for it. -/
def nic_receive (nic : Nic) (p : Packet) : Nic :=
  if nic.rdh ≠ nic.rdt then
    let i := nic.rdh.toNat
    let d := nic.rx_descs i
    { nic.set_desc i { d with length := p.length, status := d.status ||| 0x01 } with
      buffer := Function.update nic.buffer i p.data
      rdh := (nic.rdh + 1) % E1000_NUM_RX_DESC
      accepted := nic.accepted ++ [p] }
  else nic

/-! ## Step by step -/

inductive RxPlace
  | out
  | test (next : BitVec 32)
  | report (next : BitVec 32)
  | clear (next : BitVec 32)
  | release (next : BitVec 32)

structure RxState where
  nic : Nic
  place : RxPlace

def rx_poll_step (s : RxState) : RxState :=
  match s.place with
  | .out => { s with place := .test (next_tail s.nic) }
  | .test next => { s with place := if s.nic.done next.toNat then .report next else .out }
  | .report next => ⟨rx_report s.nic next, .clear next⟩
  | .clear next => ⟨rx_clear s.nic next, .release next⟩
  | .release next => ⟨rx_release s.nic next, .out⟩

inductive RxEvent
  | receive (p : Packet)
  | poll

def rx_step (s : RxState) : RxEvent → RxState
  | .receive p => { s with nic := nic_receive s.nic p }
  | .poll => rx_poll_step s

def rx_run (nic : Nic) (events : List RxEvent) : RxState := events.foldl rx_step ⟨nic, .out⟩

end Relis.Code
