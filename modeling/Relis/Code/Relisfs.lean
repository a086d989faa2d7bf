import Relis.Code.Task

/-!
# `drivers/block/ata.c` and `fs/relisfs/relisfs.c`

The drive is a store of blocks of 512 bytes. A command that it does not carry out
changes nothing, and the driver returns -1. Messages are left out, and of the
objects that `relisfs_mount` makes only the inode of `relisfs` is kept.
-/

open Relis.Bytes

namespace Relis.Code

/-! ## `ata.c` -/

/-- The blocks, and for each coming command whether the drive carries it out. When the list is
at its end, it carries out all. -/
structure Ata where
  blocks : Nat → Mem
  commands : List Bool

/-- The 28 bits of a block number that go to the drive. -/
def ata_lba (lba : BitVec 32) : Nat := (lba &&& 0x0FFFFFFF).toNat

/-- `ata_wait_drq` for the next command. -/
def Ata.next (a : Ata) : Bool × Ata := (a.commands.headD true, { a with commands := a.commands.tail })

def ata_read_block (a : Ata) (lba : BitVec 32) (buf : Mem) : Bool × Mem × Ata :=
  let (drq, a) := a.next
  if drq then (true, kmemcpy_into buf (a.blocks (ata_lba lba)) 0 0 512, a)
  else (false, buf, a)

def ata_write_block (a : Ata) (lba : BitVec 32) (buf : Mem) : Bool × Ata :=
  let (drq, a) := a.next
  if drq then
    let block := kmemcpy_into (a.blocks (ata_lba lba)) buf 0 0 512
    (true, { a with blocks := Function.update a.blocks (ata_lba lba) block })
  else (false, a)

/-! ## `relisfs.c` -/

def RELISFS_MAGIC : BitVec 32 := 0x52454C49

structure RelisfsInode where
  used : BitVec 32
  size : BitVec 32
  direct_block : BitVec 32
  name : Fin 64 → BitVec 8

def sizeof_relisfs_inode : Nat := 76
def sizeof_dentry : BitVec 64 := 344

def RelisfsInode.bytes (n : RelisfsInode) : Mem :=
  let m : Mem := fun x => if h : x - 12 < 64 then n.name ⟨x - 12, h⟩ else 0
  write32 (write32 (write32 m 0 n.used) 4 n.size) 8 n.direct_block

def RelisfsInode.at (m : Mem) (a : Nat) : RelisfsInode :=
  ⟨read32 m a, read32 m (a + 4), read32 m (a + 8), fun i => m (a + 12 + i)⟩

/-- The statics of `relisfs.c` and the state of the code below it. `i_private` is the inode in
memory that belongs to the root. -/
structure Relisfs where
  ata : Ata
  block_buf : Mem
  heap_ptr : BitVec 32
  i_private : Option RelisfsInode

/-- `ata_read_block(lba, block_buf)` -/
def Relisfs.read_block (k : Relisfs) (lba : BitVec 32) : Bool × Relisfs :=
  let (done, block_buf, ata) := ata_read_block k.ata lba k.block_buf
  (done, { k with block_buf := block_buf, ata := ata })

/-- `ata_write_block(lba, block_buf)` -/
def Relisfs.write_block (k : Relisfs) (lba : BitVec 32) : Bool × Relisfs :=
  let (done, ata) := ata_write_block k.ata lba k.block_buf
  (done, { k with ata := ata })

/-- `kmemcpy(block_buf + d, src, n)`, which must stay inside of the 512 bytes. -/
def Relisfs.copy_in (k : Relisfs) (d : Nat) (src : Mem) (n : Nat) : Except Halt Relisfs :=
  if d + n ≤ 512 then .ok { k with block_buf := kmemcpy_into k.block_buf src d 0 n } else .error .overrun

/-- `kmemcpy(buf, block_buf + s, n)`: the bytes that `buf` gets. -/
def Relisfs.copy_out (k : Relisfs) (s n : Nat) : Except Halt (List (BitVec 8)) :=
  if s + n ≤ 512 then .ok ((List.range n).map fun i => k.block_buf (s + i)) else .error .overrun

/-- The return value, the bytes for `buf`, and the new `f_pos`. The sum with `count` is a
`size_t`. -/
def relisfs_read (k : Relisfs) (f_pos : BitVec 32) (count : BitVec 64) :
    Except Halt (BitVec 64 × List (BitVec 8) × BitVec 32 × Relisfs) :=
  match k.i_private with
  | none => .ok (-1, [], f_pos, k)
  | some inode =>
    if inode.used = 0 then .ok (-1, [], f_pos, k)
    else if f_pos ≥ inode.size then .ok (0, [], f_pos, k)
    else
      let count := if f_pos.setWidth 64 + count > inode.size.setWidth 64 then
        (inode.size - f_pos).setWidth 64 else count
      let (done, k) := k.read_block inode.direct_block
      if !done then .ok (-1, [], f_pos, k)
      else do
        let buf ← k.copy_out f_pos.toNat count.toNat
        return (count, buf, f_pos + count.setWidth 32, k)

def Relisfs.store_inode (k : Relisfs) (inode : RelisfsInode) : Except Halt Relisfs := do
  let (done, k) := k.read_block 1
  if done then
    let k ← k.copy_in (sizeof_relisfs_inode * 1) inode.bytes sizeof_relisfs_inode
    return (k.write_block 1).2
  else return k

/-- The return value and the new `f_pos`. -/
def relisfs_write (k : Relisfs) (f_pos : BitVec 32) (buf : Mem) (count : BitVec 64) :
    Except Halt (BitVec 64 × BitVec 32 × Relisfs) :=
  match k.i_private with
  | none => .ok (-1, f_pos, k)
  | some inode =>
    if inode.used = 0 then .ok (-1, f_pos, k)
    else
      let (done, k) := k.read_block inode.direct_block
      if !done then .ok (-1, f_pos, k)
      else do
        let k ← k.copy_in f_pos.toNat buf count.toNat
        let (done, k) := k.write_block inode.direct_block
        if !done then return (-1, f_pos, k)
        let f_pos := f_pos + count.setWidth 32
        if f_pos > inode.size then
          let inode := { inode with size := f_pos }
          let k ← { k with i_private := some inode }.store_inode inode
          return (count, f_pos, k)
        else return (count, f_pos, k)

def root_inode : RelisfsInode := ⟨1, 0, 2, fun i => if i = 0 then 0x2F else 0⟩

/-- The branch of `relisfs_mount` for a disk without `RELISFS_MAGIC`. -/
def relisfs_format (k : Relisfs) : Except Halt Relisfs := do
  let sb := write32 (write32 (write32 (write32 k.block_buf 0 RELISFS_MAGIC) 4 64) 8 1) 12 2
  let (_, k) := { k with block_buf := sb }.write_block 0
  let (_, k) := { k with block_buf := kmemset k.block_buf 0 0 512 }.write_block 1
  let (_, k) := k.read_block 1
  let k ← k.copy_in (sizeof_relisfs_inode * 1) root_inode.bytes sizeof_relisfs_inode
  return (k.write_block 1).2

/-- `relisfs_mount` up to the first `kmalloc`, and whether it goes on. -/
def relisfs_mount_disk (k : Relisfs) : Except Halt (Bool × Relisfs) := do
  let (done, k) := k.read_block 0
  if !done then return (false, k)
  if read32 k.block_buf 0 ≠ RELISFS_MAGIC then
    let k ← relisfs_format k
    return (true, k)
  else return (true, k)

/-- A `kmalloc` whose result is used without a test. -/
def Relisfs.kmalloc_object (k : Relisfs) (size : BitVec 64) : Except Halt Relisfs :=
  match kmalloc k.heap_ptr size with
  | (none, _) => .error .null_object
  | (some _, heap_ptr) => .ok { k with heap_ptr := heap_ptr }

/-- Whether the result is a root and not null. -/
def relisfs_mount (k : Relisfs) : Except Halt (Bool × Relisfs) := do
  let (done, k) ← relisfs_mount_disk k
  if !done then return (false, k)
  let k ← k.kmalloc_object sizeof_dentry
  let k ← k.kmalloc_object sizeof_inode
  let (_, k) := k.read_block 1
  let k ← k.kmalloc_object (BitVec.ofNat 64 sizeof_relisfs_inode)
  return (true, { k with i_private := some (RelisfsInode.at k.block_buf (sizeof_relisfs_inode * 1)) })

end Relis.Code
