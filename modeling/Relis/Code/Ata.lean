import Mathlib.Data.BitVec

/-!
# `drivers/block/ata.c`

A drive answers each poll of its status port and gives the words of its data port. Both are
left open. The accesses to the ports are recorded in order.
-/

namespace Relis.Code.Pio

def ATA_DATA : BitVec 16 := 0x1F0
def ATA_COUNT : BitVec 16 := 0x1F2
def ATA_LBAlo : BitVec 16 := 0x1F3
def ATA_LBAmid : BitVec 16 := 0x1F4
def ATA_LBAhi : BitVec 16 := 0x1F5
def ATA_DRV : BitVec 16 := 0x1F6
def ATA_CMD : BitVec 16 := 0x1F7

/-- What the drive gives at the n-th poll, and as the n-th word. -/
structure Drive where
  status : Nat → BitVec 8
  data : Nat → BitVec 16

inductive Access
  | outb (port : BitVec 16) (value : BitVec 8)
  /-- `inb(ATA_STATUS)` -/
  | status (s : BitVec 8)
  | insw (port : BitVec 16) (words : List (BitVec 16))
  | outsw (port : BitVec 16) (words : List (BitVec 16))
  | printk (text : String) (lba : BitVec 32)
  deriving DecidableEq, Repr

/-- How many polls and words there were, and all accesses so far. -/
structure Ports where
  polls : Nat
  words : Nat
  trace : List Access

namespace Ports

def access (a : Ports) (x : Access) : Ports := { a with trace := a.trace ++ [x] }

def outb (a : Ports) (port : BitVec 16) (value : BitVec 8) : Ports := a.access (.outb port value)

def inb_status (d : Drive) (a : Ports) : BitVec 8 × Ports :=
  let s := d.status a.polls
  (s, { a with polls := a.polls + 1, trace := a.trace ++ [.status s] })

def insw (d : Drive) (a : Ports) (count : Nat) : List (BitVec 16) × Ports :=
  let words := (List.range count).map fun i => d.data (a.words + i)
  (words, { a with words := a.words + count, trace := a.trace ++ [.insw ATA_DATA words] })

end Ports

/-- The loop of `ata_wait_bsy`, which ends when `--timeout` is 0. -/
def ata_wait_bsy_loop (d : Drive) : Nat → Ports → Ports
  | 0, a => a
  | timeout + 1, a =>
    let (s, a) := a.inb_status d
    if s &&& 0x80 ≠ 0 then ata_wait_bsy_loop d timeout a else a

def ata_wait_bsy (d : Drive) (a : Ports) : Ports := ata_wait_bsy_loop d 1000000 a

def ata_wait_drq_loop (d : Drive) : Nat → Ports → Bool × Ports
  | 0, a => (false, a)
  | timeout + 1, a =>
    let (s, a) := a.inb_status d
    if s &&& 0x08 ≠ 0 then (true, a)
    else if s &&& 0x01 ≠ 0 then (false, a)
    else if s &&& 0x20 ≠ 0 then (false, a)
    else ata_wait_drq_loop d timeout a

def ata_wait_drq (d : Drive) (a : Ports) : Bool × Ports := ata_wait_drq_loop d 1000000 a

/-- The six writes that both functions begin with. -/
def ata_command (a : Ports) (lba : BitVec 32) (command : BitVec 8) : Ports :=
  let a := a.outb ATA_DRV (0xE0 ||| ((lba >>> 24) &&& 0x0F#32).setWidth 8)
  let a := a.outb ATA_COUNT 1
  let a := a.outb ATA_LBAlo ((lba &&& 0xFF#32).setWidth 8)
  let a := a.outb ATA_LBAmid (((lba >>> 8) &&& 0xFF#32).setWidth 8)
  let a := a.outb ATA_LBAhi (((lba >>> 16) &&& 0xFF#32).setWidth 8)
  a.outb ATA_CMD command

/-- With the words that are in `buf` after the call. -/
def ata_read_block (d : Drive) (a : Ports) (lba : BitVec 32) (buf : List (BitVec 16)) :
    Int × List (BitVec 16) × Ports :=
  let a := ata_command a lba 0x20
  let a := ata_wait_bsy d a
  let (ready, a) := ata_wait_drq d a
  if !ready then (-1, buf, a.access (.printk "ATA: Read error at LBA %d" lba))
  else
    let (words, a) := a.insw d 256
    (0, words, a)

/-- `buf` has 256 words. -/
def ata_write_block (d : Drive) (a : Ports) (lba : BitVec 32) (buf : List (BitVec 16)) :
    Int × Ports :=
  let a := ata_command a lba 0x30
  let a := ata_wait_bsy d a
  let (ready, a) := ata_wait_drq d a
  if !ready then (-1, a.access (.printk "ATA: Write error at LBA %d" lba))
  else
    let a := a.access (.outsw ATA_DATA buf)
    let a := a.outb ATA_CMD 0xE7
    (0, ata_wait_bsy d a)

end Relis.Code.Pio
