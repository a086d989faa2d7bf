import Relis.Code.PciConfig
import Relis.Lib.Bytes
import Relis.Pci

/-!
# The configuration space as bytes

Where a read gives what was written last, the accessors read and write one array of bytes
for each function.
-/

open Relis.Bytes Relis.Code.PciConfig Relis.Run

open Relis.Code (pci_addr)

namespace Relis.Pci

/-! ## The ports -/

structure Bridge where
  address : BitVec 32
  cfg : ConfigSpace

def selected (addr : BitVec 32) : Option (Address × BitVec 8) :=
  if addr.getLsbD 31 then
    some ((addr.extractLsb' 16 8, (addr.extractLsb' 11 5).setWidth 8, (addr.extractLsb' 8 3).setWidth 8),
      addr.extractLsb' 0 8)
  else none

def ConfigSpace.set (cfg : ConfigSpace) (x : Address) (reg : BitVec 8) (v : BitVec 32) :
    ConfigSpace :=
  Function.update cfg x (Function.update (cfg x) reg v)

/-- A read that selects no register gives all ones, and such a write is lost. -/
def bridge : PortIo Bridge where
  outl port v b :=
    if port = PCI_ADDR then { b with address := v }
    else if port = PCI_DATA then
      match selected b.address with
      | some (x, reg) => { b with cfg := b.cfg.set x reg v }
      | none => b
    else b
  inl port b :=
    if port = PCI_DATA then
      match selected b.address with
      | some (x, reg) => (b.cfg x reg, b)
      | none => (0xFFFFFFFF, b)
    else (0xFFFFFFFF, b)

variable {bus slot func off : BitVec 8} {b : Bridge}

theorem selected_pci_addr (off : BitVec 8) (hslot : slot.toNat < 32) (hfunc : func.toNat < 8) :
    selected (pci_addr bus slot func off) = some ((bus, slot, func), off &&& 0xFC#8) := by
  obtain ⟨slot, rfl⟩ := exists_narrow (m := 5) hslot
  obtain ⟨func, rfl⟩ := exists_narrow (m := 3) hfunc
  obtain ⟨hbus, hslot, hfunc, hoff⟩ := pci_addr_fields bus off slot func
  have henable : (pci_addr bus (slot.setWidth 8) (func.setWidth 8) off).getLsbD 31 := by simp [pci_addr]
  rw [selected, if_pos henable, hbus, hslot, hfunc, hoff]

theorem inl_data (off : BitVec 8) (hslot : slot.toNat < 32) (hfunc : func.toNat < 8)
    (cfg : ConfigSpace) :
    bridge.inl PCI_DATA ⟨pci_addr bus slot func off, cfg⟩ =
      (cfg (bus, slot, func) (off &&& 0xFC#8), ⟨pci_addr bus slot func off, cfg⟩) := by
  change (match selected (pci_addr bus slot func off) with | some (x, reg) => _ | none => _) = _
  rw [selected_pci_addr off hslot hfunc]

theorem outl_data (off : BitVec 8) (hslot : slot.toNat < 32) (hfunc : func.toNat < 8)
    (cfg : ConfigSpace) (v : BitVec 32) :
    (bridge.outl PCI_DATA v ⟨pci_addr bus slot func off, cfg⟩).cfg =
      cfg.set (bus, slot, func) (off &&& 0xFC#8) v := by
  change (match selected (pci_addr bus slot func off) with | some (x, reg) => _ | none => _ :
    Bridge).cfg = _
  rw [selected_pci_addr off hslot hfunc]

/-! ## The bytes -/

namespace ConfigSpace

variable {cfg : ConfigSpace} {x : Address}

def registers (cfg : ConfigSpace) (x : Address) : Nat → BitVec 32 :=
  fun i => if i < 64 then cfg x (BitVec.ofNat 8 (4 * i)) else 0

def bytes (cfg : ConfigSpace) (x : Address) : Mem := ofWords (cfg.registers x)

theorem offset_eq (off : BitVec 8) : off &&& 0xFC#8 = BitVec.ofNat 8 (4 * (off.toNat / 4)) := by
  revert off
  decide

theorem registers_offset (off : BitVec 8) :
    cfg.registers x (off.toNat / 4) = cfg x (off &&& 0xFC#8) := by
  rw [registers, if_pos (by omega), offset_eq]

theorem ofNat_register_ne {i j : Nat} (hi : i < 64) (hj : j < 64) (hij : i ≠ j) :
    BitVec.ofNat 8 (4 * i) ≠ BitVec.ofNat 8 (4 * j) := by
  intro h
  have heq := congrArg BitVec.toNat h
  rw [BitVec.toNat_ofNat, BitVec.toNat_ofNat] at heq
  omega

theorem registers_set (off : BitVec 8) (v : BitVec 32) :
    (cfg.set x (off &&& 0xFC#8) v).registers =
      Function.update cfg.registers x (Function.update (cfg.registers x) (off.toNat / 4) v) := by
  funext y i
  by_cases hy : y = x
  · subst hy
    rw [Function.update_self, registers, set, Function.update_self, offset_eq]
    by_cases hi : i = off.toNat / 4
    · rw [hi, if_pos (by omega), Function.update_self, Function.update_self]
    · rw [Function.update_of_ne hi, registers]
      by_cases hlt : i < 64
      · rw [if_pos hlt, if_pos hlt, Function.update_of_ne (ofNat_register_ne hlt (by omega) hi)]
      · rw [if_neg hlt, if_neg hlt]
  · rw [Function.update_of_ne hy, registers, registers, set, Function.update_of_ne hy]

theorem bytes_set (off : BitVec 8) (v : BitVec 32) :
    (cfg.set x (off &&& 0xFC#8) v).bytes =
      Function.update cfg.bytes x
        (ofWords (Function.update (cfg.registers x) (off.toNat / 4) v)) := by
  funext y
  rw [bytes, registers_set]
  by_cases hy : y = x
  · subst hy
    rw [Function.update_self, Function.update_self]
  · rw [Function.update_of_ne hy, Function.update_of_ne hy, bytes]

end ConfigSpace

/-! ## The accessors -/

theorem and_two_of_even (h : off.toNat % 2 = 0) :
    ((off &&& 2#8).toNat = 0 ∨ (off &&& 2#8).toNat = 2) ∧
      off.toNat = 4 * (off.toNat / 4) + (off &&& 2#8).toNat := by
  revert off
  decide

theorem and_three (off : BitVec 8) :
    (off &&& 3#8).toNat < 4 ∧ off.toNat = 4 * (off.toNat / 4) + (off &&& 3#8).toNat := by
  revert off
  decide

theorem shift_extract (v mask : BitVec 32) (k n : Nat) (h : mask.setWidth n = BitVec.allOnes n) :
    ((v >>> (k * 8)) &&& mask).setWidth n = v.extractLsb' (8 * k) n := by
  rw [BitVec.setWidth_and, h, BitVec.and_allOnes, Nat.mul_comm]
  ext i hi
  simp

section

variable (bus off : BitVec 8) (hslot : slot.toNat < 32) (hfunc : func.toNat < 8) (b : Bridge)

include hslot hfunc

theorem inl_register :
    bridge.inl PCI_DATA (bridge.outl PCI_ADDR (pci_addr bus slot func off) b) =
      (b.cfg.registers (bus, slot, func) (off.toNat / 4), ⟨pci_addr bus slot func off, b.cfg⟩) := by
  rw [ConfigSpace.registers_offset]
  exact inl_data off hslot hfunc b.cfg

theorem pci_read32_spec (haligned : off.toNat % 4 = 0) :
    pci_read32 bridge bus slot func off b =
      (read32 (b.cfg.bytes (bus, slot, func)) off.toNat, ⟨pci_addr bus slot func off, b.cfg⟩) := by
  have hoff : off.toNat = 4 * (off.toNat / 4) := by omega
  rw [pci_read32, inl_register bus off hslot hfunc b, ConfigSpace.bytes, read32_ofWords _ hoff]

theorem pci_read16_spec (heven : off.toNat % 2 = 0) :
    pci_read16 bridge bus slot func off b =
      (read16 (b.cfg.bytes (bus, slot, func)) off.toNat, ⟨pci_addr bus slot func off, b.cfg⟩) := by
  obtain ⟨hk, hoff⟩ := and_two_of_even heven
  rw [pci_read16, inl_register bus off hslot hfunc b, ConfigSpace.bytes, read16_ofWords _ hk hoff]
  exact congrArg (·, _) (shift_extract _ _ _ 16 rfl)

theorem pci_read8_spec :
    pci_read8 bridge bus slot func off b =
      (b.cfg.bytes (bus, slot, func) off.toNat, ⟨pci_addr bus slot func off, b.cfg⟩) := by
  obtain ⟨hk, hoff⟩ := and_three off
  rw [pci_read8, inl_register bus off hslot hfunc b, ConfigSpace.bytes, ofWords_apply _ hk hoff]
  exact congrArg (·, _) (shift_extract _ _ _ 8 rfl)

theorem pci_write32_spec (val : BitVec 32) (haligned : off.toNat % 4 = 0) :
    (pci_write32 bridge bus slot func off val b).cfg.bytes =
      Function.update b.cfg.bytes (bus, slot, func)
        (write32 (b.cfg.bytes (bus, slot, func)) off.toNat val) := by
  have hoff : off.toNat = 4 * (off.toNat / 4) := by omega
  have hset : (pci_write32 bridge bus slot func off val b).cfg = _ := outl_data off hslot hfunc b.cfg val
  rw [hset, ConfigSpace.bytes_set, ofWords_update _ _ hoff]
  rfl

theorem pci_write16_spec (val : BitVec 16) (heven : off.toNat % 2 = 0) :
    (pci_write16 bridge bus slot func off val b).cfg.bytes =
      Function.update b.cfg.bytes (bus, slot, func)
        (write16 (b.cfg.bytes (bus, slot, func)) off.toNat val) := by
  obtain ⟨hk, hoff⟩ := and_two_of_even heven
  -- the word that goes back is the old one with its half replaced
  have hset : (pci_write16 bridge bus slot func off val b).cfg =
      b.cfg.set (bus, slot, func) (off &&& 0xFC#8)
        (setHalf (b.cfg.registers (bus, slot, func) (off.toNat / 4)) (off &&& 2#8).toNat val) := by
    rw [pci_write16, inl_register bus off hslot hfunc b]
    exact outl_data off hslot hfunc b.cfg _
  rw [hset, ConfigSpace.bytes_set, ofWords_update_half _ _ hk hoff]
  rfl

end

theorem pci_addr_inj {bus' slot' func' off' : BitVec 8} (hslot : slot.toNat < 32)
    (hfunc : func.toNat < 8) (hslot' : slot'.toNat < 32) (hfunc' : func'.toNat < 8)
    (h : pci_addr bus slot func off = pci_addr bus' slot' func' off') :
    (bus, slot, func) = (bus', slot', func') ∧ off.toNat / 4 = off'.toNat / 4 := by
  have hsame := congrArg selected h
  rw [selected_pci_addr off hslot hfunc, selected_pci_addr off' hslot' hfunc', Option.some_inj,
    Prod.mk.injEq] at hsame
  refine ⟨hsame.1, ?_⟩
  by_contra hne
  rw [ConfigSpace.offset_eq, ConfigSpace.offset_eq] at hsame
  exact ConfigSpace.ofNat_register_ne (by omega) (by omega) hne hsame.2

/-- In every state of the ports, for every function and offset. -/
theorem config_space_bytes (bus slot func off : BitVec 8) (hslot : slot.toNat < 32)
    (hfunc : func.toNat < 8) (b : Bridge) :
    pci_read8 bridge bus slot func off b =
      (b.cfg.bytes (bus, slot, func) off.toNat, ⟨pci_addr bus slot func off, b.cfg⟩) ∧
    (off.toNat % 2 = 0 → pci_read16 bridge bus slot func off b =
      (read16 (b.cfg.bytes (bus, slot, func)) off.toNat, ⟨pci_addr bus slot func off, b.cfg⟩)) ∧
    (off.toNat % 4 = 0 → pci_read32 bridge bus slot func off b =
      (read32 (b.cfg.bytes (bus, slot, func)) off.toNat, ⟨pci_addr bus slot func off, b.cfg⟩)) ∧
    (off.toNat % 4 = 0 → ∀ val, (pci_write32 bridge bus slot func off val b).cfg.bytes =
      Function.update b.cfg.bytes (bus, slot, func)
        (write32 (b.cfg.bytes (bus, slot, func)) off.toNat val)) ∧
    (off.toNat % 2 = 0 → ∀ val, (pci_write16 bridge bus slot func off val b).cfg.bytes =
      Function.update b.cfg.bytes (bus, slot, func)
        (write16 (b.cfg.bytes (bus, slot, func)) off.toNat val)) ∧
    ∀ bus' slot' func' off' : BitVec 8, slot'.toNat < 32 → func'.toNat < 8 →
      pci_addr bus slot func off = pci_addr bus' slot' func' off' →
      (bus, slot, func) = (bus', slot', func') ∧ off.toNat / 4 = off'.toNat / 4 :=
  ⟨pci_read8_spec bus off hslot hfunc b, pci_read16_spec bus off hslot hfunc b,
    pci_read32_spec bus off hslot hfunc b, fun haligned val => pci_write32_spec bus off hslot hfunc
    b val haligned, fun heven val => pci_write16_spec bus off hslot hfunc b val heven,
    fun _ _ _ _ hslot' hfunc' h => pci_addr_inj hslot hfunc hslot' hfunc' h⟩

def counted : Bridge := ⟨0, fun _ _ => 0x44332211⟩

/-- The last function of the last slot. -/
theorem counted_bytes :
    (pci_read8 bridge 1 31 7 5 counted).1 = 0x22 ∧ (pci_read16 bridge 1 31 7 6 counted).1 = 0x4433 ∧
    (pci_read32 bridge 1 31 7 4 counted).1 = 0x44332211 ∧
    (pci_write32 bridge 1 31 7 4 0xAABBCCDD counted).cfg.bytes (1, 31, 7) 5 = 0xCC ∧
    (pci_write16 bridge 1 31 7 6 0xAABB counted).cfg.bytes (1, 31, 7) 5 = 0x22 ∧
    (pci_write16 bridge 1 31 7 6 0xAABB counted).cfg.bytes (1, 31, 7) 6 = 0xBB ∧
    pci_addr 1 31 7 6 ≠ pci_addr 1 31 6 6 := by
  obtain ⟨h8, -, -, -, -, hne⟩ := config_space_bytes 1 31 7 5 (by decide) (by decide) counted
  obtain ⟨-, h16, -, -, hw16, -⟩ := config_space_bytes 1 31 7 6 (by decide) (by decide) counted
  obtain ⟨-, -, h32, hw32, -, -⟩ := config_space_bytes 1 31 7 4 (by decide) (by decide) counted
  rw [h8, h16 (by decide), h32 (by decide), hw32 (by decide), hw16 (by decide)]
  refine ⟨by decide, by decide, by decide, by decide, by decide, by decide, fun h => ?_⟩
  exact absurd (hne 1 31 6 6 (by decide) (by decide) h).1 (by decide)

/-! ## Runs -/

inductive Request
  | read8
  | read16
  | read32
  | write16 (val : BitVec 16)
  | write32 (val : BitVec 32)

def Request.size : Request → Nat
  | .read8 => 1
  | .read16 | .write16 _ => 2
  | .read32 | .write32 _ => 4

structure Access where
  bus : BitVec 8
  slot : BitVec 8
  func : BitVec 8
  off : BitVec 8
  request : Request
  slot_lt : slot.toNat < 32
  func_lt : func.toNat < 8
  aligned : off.toNat % request.size = 0

namespace Access

def function (a : Access) : Address := (a.bus, a.slot, a.func)

def call (a : Access) (b : Bridge) : BitVec 32 × Bridge :=
  match a.request with
  | .read8 => (pci_read8 bridge a.bus a.slot a.func a.off b).map (BitVec.setWidth 32) id
  | .read16 => (pci_read16 bridge a.bus a.slot a.func a.off b).map (BitVec.setWidth 32) id
  | .read32 => pci_read32 bridge a.bus a.slot a.func a.off b
  | .write16 val => (0, pci_write16 bridge a.bus a.slot a.func a.off val b)
  | .write32 val => (0, pci_write32 bridge a.bus a.slot a.func a.off val b)

def spec (a : Access) (m : Address → Mem) : BitVec 32 × (Address → Mem) :=
  match a.request with
  | .read8 => ((m a.function a.off.toNat).setWidth 32, m)
  | .read16 => ((read16 (m a.function) a.off.toNat).setWidth 32, m)
  | .read32 => (read32 (m a.function) a.off.toNat, m)
  | .write16 val => (0, Function.update m a.function (write16 (m a.function) a.off.toNat val))
  | .write32 val => (0, Function.update m a.function (write32 (m a.function) a.off.toNat val))

theorem call_refines (a : Access) (b : Bridge) :
    (a.call b).map id (·.cfg.bytes) = a.spec b.cfg.bytes := by
  obtain ⟨bus, slot, func, off, request, hslot, hfunc, haligned⟩ := a
  cases request with
  | read8 =>
    rw [call, pci_read8_spec bus off hslot hfunc b]
    rfl
  | read16 =>
    rw [call, pci_read16_spec bus off hslot hfunc b haligned]
    rfl
  | read32 =>
    rw [call, pci_read32_spec bus off hslot hfunc b haligned]
    rfl
  | write16 val => exact congrArg (Prod.mk 0) (pci_write16_spec bus off hslot hfunc b val haligned)
  | write32 val => exact congrArg (Prod.mk 0) (pci_write32_spec bus off hslot hfunc b val haligned)

end Access

theorem accesses_refine (as : List Access) (b : Bridge) :
    (answers Access.call as b).map id (·.cfg.bytes) = answers Access.spec as b.cfg.bytes :=
  answers_view (·.cfg.bytes) Access.call_refines as b

/-! ## The callers -/

theorem pci_enable_device_spec (dev : Code.PciDevice) (hslot : dev.slot.toNat < 32)
    (hfunc : dev.func.toNat < 8) (b : Bridge) :
    (pci_enable_device bridge dev b).cfg.bytes =
      Function.update b.cfg.bytes (address dev)
        (write16 (b.cfg.bytes (address dev)) 4 (read16 (b.cfg.bytes (address dev)) 4 ||| 7)) := by
  rw [pci_enable_device, pci_read16_spec dev.bus PCI_COMMAND hslot hfunc b rfl]
  exact pci_write16_spec dev.bus PCI_COMMAND hslot hfunc _ _ rfl

theorem scan_reads (s : Code.Pci) (hslot : slot.toNat < 32) (hfunc : func.toNat < 8) (b : Bridge) :
    (Code.pci_read32 (dataPort b.cfg) s bus slot func off).1 =
      (pci_read32 bridge bus slot func off b).1 ∧
    (Code.pci_read8 (dataPort b.cfg) s bus slot func off).1 =
      (pci_read8 bridge bus slot func off b).1 := by
  have hport : dataPort b.cfg s.reads (pci_addr bus slot func off) = _ :=
    dataPort_pci_addr s.reads off hslot hfunc
  have hinl : bridge.inl PCI_DATA (bridge.outl PCI_ADDR (pci_addr bus slot func off) b) = _ :=
    inl_data off hslot hfunc b.cfg
  constructor
  · rw [Code.pci_read32, pci_read32, hport, hinl]
  · rw [Code.pci_read8, pci_read8, hport, hinl]
    change _ = BitVec.setWidth 8 (_ &&& 0xFF#32)
    rw [BitVec.setWidth_and]
    exact BitVec.and_allOnes.symm

end Relis.Pci
