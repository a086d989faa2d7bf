import Relis.Code.Pci

/-!
# `drivers/pci/pci.c`: access to the configuration space

What is behind the two ports is left open, and may change with each access.
-/

namespace Relis.Code.PciConfig

def PCI_ADDR : BitVec 16 := 0xCF8
def PCI_DATA : BitVec 16 := 0xCFC

def PCI_COMMAND : BitVec 8 := 0x04

def PCI_CMD_IO : BitVec 16 := 1 <<< 0
def PCI_CMD_MEM : BitVec 16 := 1 <<< 1
def PCI_CMD_BUSMASTER : BitVec 16 := 1 <<< 2

/-- What the machine does at an access to a port. -/
structure PortIo (σ : Type) where
  outl : BitVec 16 → BitVec 32 → σ → σ
  inl : BitVec 16 → σ → BitVec 32 × σ

variable {σ : Type} (io : PortIo σ) (bus slot func off : BitVec 8)

def pci_read32 (s : σ) : BitVec 32 × σ :=
  let s := io.outl PCI_ADDR (pci_addr bus slot func off) s
  io.inl PCI_DATA s

def pci_read16 (s : σ) : BitVec 16 × σ :=
  let s := io.outl PCI_ADDR (pci_addr bus slot func off) s
  let (v, s) := io.inl PCI_DATA s
  (((v >>> ((off &&& 2#8).toNat * 8)) &&& 0xFFFF#32).setWidth 16, s)

def pci_read8 (s : σ) : BitVec 8 × σ :=
  let s := io.outl PCI_ADDR (pci_addr bus slot func off) s
  let (v, s) := io.inl PCI_DATA s
  (((v >>> ((off &&& 3#8).toNat * 8)) &&& 0xFF#32).setWidth 8, s)

def pci_write32 (val : BitVec 32) (s : σ) : σ :=
  let s := io.outl PCI_ADDR (pci_addr bus slot func off) s
  io.outl PCI_DATA val s

def pci_write16 (val : BitVec 16) (s : σ) : σ :=
  let s := io.outl PCI_ADDR (pci_addr bus slot func off) s
  let (old, s) := io.inl PCI_DATA s
  let shift := (off &&& 2#8).toNat * 8
  let old := (old &&& ~~~(0xFFFF#32 <<< shift)) ||| (val.setWidth 32 <<< shift)
  io.outl PCI_DATA old s

def pci_enable_device (dev : PciDevice) (s : σ) : σ :=
  let (cmd, s) := pci_read16 io dev.bus dev.slot dev.func PCI_COMMAND s
  let cmd := cmd ||| (PCI_CMD_BUSMASTER ||| PCI_CMD_MEM ||| PCI_CMD_IO)
  pci_write16 io dev.bus dev.slot dev.func PCI_COMMAND cmd s

end Relis.Code.PciConfig
