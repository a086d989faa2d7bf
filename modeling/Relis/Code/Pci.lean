import Mathlib.Data.BitVec
import Relis.Lib.Run

/-!
# `drivers/pci/pci.c`

The scan of the buses. What a read of the data port gives is left open: it can depend on the
address and on how many reads there have been before. The messages are left out.
-/

open Relis.Run

namespace Relis.Code

def PCI_VENDOR_ID : BitVec 8 := 0x00
def PCI_CLASS_REVISION : BitVec 8 := 0x08
def PCI_HEADER_TYPE : BitVec 8 := 0x0E
def PCI_BAR0 : BitVec 8 := 0x10
def PCI_SECONDARY_BUS : BitVec 8 := 0x19
def PCI_INTERRUPT_LINE : BitVec 8 := 0x3C

def PCI_HEADER_TYPE_BRIDGE : BitVec 8 := 1
def PCI_HEADER_TYPE_MULTIFUNC : BitVec 8 := 0x80

def PCI_BAR_TYPE_IO : BitVec 8 := 1
def PCI_BAR_TYPE_MMIO32 : BitVec 8 := 0
def PCI_BAR_TYPE_MMIO64 : BitVec 8 := 2

def MAX_PCI_DEVICES : Nat := 32

/-- `pci_device_t`. Nothing sets `bar_count`. -/
structure PciDevice where
  bus : BitVec 8
  slot : BitVec 8
  func : BitVec 8
  vendor_id : BitVec 16
  device_id : BitVec 16
  class_code : BitVec 8
  subclass : BitVec 8
  prog_if : BitVec 8
  header_type : BitVec 8
  irq : BitVec 8
  bar : Nat → BitVec 64
  bar_type : Nat → BitVec 8

/-- The entries of `pci_devices` up to `pci_device_count`, and the number of reads so far. -/
structure Pci where
  pci_devices : List PciDevice
  reads : Nat

def Pci.pci_device_count (s : Pci) : Nat := s.pci_devices.length

/-- What `inl(PCI_DATA)` gives after so many reads, for what `PCI_ADDR` holds. -/
abbrev DataPort : Type := Nat → BitVec 32 → BitVec 32

inductive PciHalt
  /-- More scans of a bus are nested than there is fuel for. -/
  | nested
  /-- A loop has not ended within its fuel. -/
  | endless

def pci_addr (bus slot func offset : BitVec 8) : BitVec 32 :=
  (1#32 <<< 31) ||| (bus.setWidth 32 <<< 16) ||| (slot.setWidth 32 <<< 11) |||
    (func.setWidth 32 <<< 8) ||| (offset &&& 0xFC#8).setWidth 32

def pci_read32 (inl : DataPort) (s : Pci) (bus slot func off : BitVec 8) : BitVec 32 × Pci :=
  (inl s.reads (pci_addr bus slot func off), { s with reads := s.reads + 1 })

def pci_read8 (inl : DataPort) (s : Pci) (bus slot func off : BitVec 8) : BitVec 8 × Pci :=
  ((inl s.reads (pci_addr bus slot func off) >>> ((off &&& 3#8).toNat * 8)).setWidth 8,
    { s with reads := s.reads + 1 })

/-- The loop of `pci_decode_bars` from the index `i` on. -/
def decode_bars (inl : DataPort) (bar_limit : Nat) :
    Nat → Nat → PciDevice → Pci → Except PciHalt (PciDevice × Pci)
  | 0, i, dev, s => if i < bar_limit then .error .endless else .ok (dev, s)
  | fuel + 1, i, dev, s =>
    if i < bar_limit then
      let reg := PCI_BAR0 + BitVec.ofNat 8 (i * 4)
      let (bar_lo, s) := pci_read32 inl s dev.bus dev.slot dev.func reg
      let set := fun (bar : BitVec 64) (type : BitVec 8) =>
        { dev with bar := Function.update dev.bar i bar, bar_type := Function.update dev.bar_type i type }
      if bar_lo = 0 then decode_bars inl bar_limit fuel (i + 1) (set 0 0) s
      else if bar_lo &&& 1#32 ≠ 0 then
        decode_bars inl bar_limit fuel (i + 1)
          (set ((bar_lo &&& 0xFFFFFFFC#32).setWidth 64) PCI_BAR_TYPE_IO) s
      else
        let type := ((bar_lo >>> 1) &&& 3#32).setWidth 8
        if type = PCI_BAR_TYPE_MMIO32 then
          decode_bars inl bar_limit fuel (i + 1)
            (set ((bar_lo &&& 0xFFFFFFF0#32).setWidth 64) PCI_BAR_TYPE_MMIO32) s
        else if type = PCI_BAR_TYPE_MMIO64 then
          let (bar_hi, s) := pci_read32 inl s dev.bus dev.slot dev.func (reg + 4)
          decode_bars inl bar_limit fuel (i + 2)
            (set ((bar_hi.setWidth 64 <<< 32) ||| (bar_lo &&& 0xFFFFFFF0#32).setWidth 64)
              PCI_BAR_TYPE_MMIO64) s
        else decode_bars inl bar_limit fuel (i + 1) dev s
    else .ok (dev, s)

def pci_decode_bars (inl : DataPort) (dev : PciDevice) (s : Pci) : Except PciHalt (PciDevice × Pci) :=
  let bar_limit := if dev.header_type &&& 0x7F#8 = PCI_HEADER_TYPE_BRIDGE then 2 else 6
  decode_bars inl bar_limit 6 0 dev s

/-- `scan` is `pci_scan_bus`. The entry of the table is taken before the registers are read; it is
added here when its fields are known, since nothing looks at the table in between. -/
def pci_scan_function (inl : DataPort) (scan : BitVec 8 → Pci → Except PciHalt Pci)
    (bus slot func : BitVec 8) (s : Pci) : Except PciHalt Pci :=
  if s.pci_device_count ≥ MAX_PCI_DEVICES then .ok s
  else
    let (id, s) := pci_read32 inl s bus slot func PCI_VENDOR_ID
    let vid := id.setWidth 16
    if vid = 0xFFFF then .ok s
    else do
      let (class_rev, s) := pci_read32 inl s bus slot func PCI_CLASS_REVISION
      let (header_type, s) := pci_read8 inl s bus slot func PCI_HEADER_TYPE
      let (irq, s) := pci_read8 inl s bus slot func PCI_INTERRUPT_LINE
      let (dev, s) ← pci_decode_bars inl
        { bus := bus, slot := slot, func := func, vendor_id := vid, device_id := (id >>> 16).setWidth 16
          class_code := (class_rev >>> 24).setWidth 8, subclass := (class_rev >>> 16).setWidth 8
          prog_if := (class_rev >>> 8).setWidth 8, header_type := header_type, irq := irq
          bar := fun _ => 0, bar_type := fun _ => 0 } s
      let s := { s with pci_devices := s.pci_devices ++ [dev] }
      if dev.class_code = 0x06 ∧ dev.subclass = 0x04 then
        let (sec_bus, s) := pci_read8 inl s bus slot func PCI_SECONDARY_BUS
        if sec_bus ≠ 0 then scan sec_bus s else .ok s
      else .ok s

/-- One round of the loop of `pci_scan_bus`. -/
def pci_scan_slot (inl : DataPort) (scan : BitVec 8 → Pci → Except PciHalt Pci)
    (bus slot : BitVec 8) (s : Pci) : Except PciHalt Pci :=
  let (id, s) := pci_read32 inl s bus slot 0 PCI_VENDOR_ID
  if id = 0xFFFFFFFF then .ok s
  else
    let (header_type, s) := pci_read8 inl s bus slot 0 PCI_HEADER_TYPE
    if header_type &&& PCI_HEADER_TYPE_MULTIFUNC ≠ 0 then
      loop 0 8 (fun func s =>
        let (id, s) := pci_read32 inl s bus slot (BitVec.ofNat 8 func) PCI_VENDOR_ID
        if id ≠ 0xFFFFFFFF then pci_scan_function inl scan bus slot (BitVec.ofNat 8 func) s else .ok s) s
    else pci_scan_function inl scan bus slot 0 s

/-- The fuel is how many scans may be nested, with this one. -/
def pci_scan_bus (inl : DataPort) : Nat → BitVec 8 → Pci → Except PciHalt Pci
  | 0, _, _ => .error .nested
  | fuel + 1, bus, s =>
    loop 0 32 (fun slot => pci_scan_slot inl (pci_scan_bus inl fuel) bus (BitVec.ofNat 8 slot)) s

def pci_init (inl : DataPort) (fuel : Nat) (s : Pci) : Except PciHalt Pci :=
  pci_scan_bus inl fuel 0 { s with pci_devices := [] }

end Relis.Code
