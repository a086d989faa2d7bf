import Relis.Code.Relisfs
import Relis.Slab

/-!
# `relisfs_mount`

What a mount finds on the disk, and what is left there when a format is cut short.
-/

open Relis.Bytes Relis.Run Relis.Code Relis.Slab

namespace Relis.Relisfs

/-! ## The drive -/

def outcome (commands : List Bool) (i : Nat) : Bool := commands[i]?.getD true

theorem headD_eq (commands : List Bool) : commands.headD true = outcome commands 0 := by
  cases commands <;> rfl

@[simp] theorem outcome_tail (commands : List Bool) (i : Nat) :
    outcome commands.tail i = outcome commands (i + 1) := by
  cases commands <;> rfl

@[simp] theorem outcome_nil (i : Nat) : outcome [] i = true := rfl

variable {k k' : Code.Relisfs} {lba : BitVec 32}

def SameBlock (m m' : Mem) : Prop := ∀ x < 512, m' x = m x

theorem copy_block (buf src : Mem) : SameBlock src (kmemcpy_into buf src 0 0 512) := by
  intro x hx
  rw [kmemcpy_into_apply, if_pos ⟨Nat.zero_le x, by omega⟩]
  congr 1
  omega

theorem SameBlock.read32 {m m' : Mem} (h : SameBlock m m') {a : Nat} (ha : a + 4 ≤ 512) :
    read32 m' a = Bytes.read32 m a :=
  read32_congr fun i hi => h (a + i) (by omega)

theorem read_block_fails (h : outcome k.ata.commands 0 = false) :
    k.read_block lba = (false, { k with ata := { k.ata with commands := k.ata.commands.tail } }) := by
  unfold Code.Relisfs.read_block ata_read_block Ata.next
  simp only [headD_eq, h, if_false, Bool.false_eq_true]

theorem read_block_done (lba : BitVec 32) (h : outcome k.ata.commands 0 = true) : ∃ block_buf,
    k.read_block lba =
      (true,
        { k with block_buf := block_buf, ata := { k.ata with commands := k.ata.commands.tail } }) ∧
    SameBlock (k.ata.blocks (ata_lba lba)) block_buf := by
  refine ⟨_, ?_, copy_block k.block_buf _⟩
  unfold Code.Relisfs.read_block ata_read_block Ata.next
  simp only [headD_eq, h, if_true]

theorem write_block_fails (h : outcome k.ata.commands 0 = false) :
    k.write_block lba =
      (false, { k with ata := { k.ata with commands := k.ata.commands.tail } }) := by
  unfold Code.Relisfs.write_block ata_write_block Ata.next
  simp only [headD_eq, h, if_false, Bool.false_eq_true]

theorem write_block_done (lba : BitVec 32) (h : outcome k.ata.commands 0 = true) : ∃ block,
    k.write_block lba = (true, { k with ata :=
      ⟨Function.update k.ata.blocks (ata_lba lba) block, k.ata.commands.tail⟩ }) ∧
        SameBlock k.block_buf block := by
  refine ⟨_, ?_, copy_block (k.ata.blocks (ata_lba lba)) _⟩
  unfold Code.Relisfs.write_block ata_write_block Ata.next
  simp only [headD_eq, h, if_true]

/-! ## The inode as bytes -/

theorem inode_congr {m m' : Mem} {a b : Nat} (h : ∀ i < 76, m' (b + i) = m (a + i)) :
    RelisfsInode.at m' b = RelisfsInode.at m a := by
  have hword : ∀ c, c + 4 ≤ 76 → read32 m' (b + c) = read32 m (a + c) := by
    intro c hc
    apply read32_congr
    intro i hi
    rw [Nat.add_assoc, Nat.add_assoc, h _ (by omega)]
  unfold RelisfsInode.at
  rw [hword 4 (by omega), hword 8 (by omega), show read32 m' b = read32 m a from hword 0 (by omega)]
  congr 1
  funext i
  rw [Nat.add_assoc, Nat.add_assoc, h _ (by omega)]

theorem inode_at_bytes (n : RelisfsInode) : RelisfsInode.at n.bytes 0 = n := by
  unfold RelisfsInode.at RelisfsInode.bytes
  dsimp only
  congr 1
  · rw [read32_write32_ne _ _ (by omega), read32_write32_ne _ _ (by omega), read32_write32_self]
  · rw [read32_write32_ne _ _ (by omega), read32_write32_self]
  · rw [read32_write32_self]
  · funext i
    have hi := i.isLt
    simp only [write32]
    rw [if_neg (by omega), if_neg (by omega), if_neg (by omega), dif_pos (by omega)]
    congr 1
    exact Fin.ext (by simp)

theorem inode_at_copy (buf : Mem) (n : RelisfsInode) :
    RelisfsInode.at (kmemcpy_into buf n.bytes 76 0 76) 76 = n := by
  refine (inode_congr (a := 0) fun i hi => ?_).trans (inode_at_bytes n)
  rw [kmemcpy_into_apply, if_pos (by omega)]
  congr 1
  omega

theorem SameBlock.inode {m m' : Mem} (h : SameBlock m m') :
    RelisfsInode.at m' 76 = RelisfsInode.at m 76 :=
  inode_congr fun i hi => h (76 + i) (by omega)

theorem copy_inode (k : Code.Relisfs) (n : RelisfsInode) :
    k.copy_in (sizeof_relisfs_inode * 1) n.bytes sizeof_relisfs_inode =
      .ok { k with block_buf := kmemcpy_into k.block_buf n.bytes 76 0 76 } := by
  unfold Code.Relisfs.copy_in
  rw [if_pos (by decide)]
  rfl

/-! ## The format -/

structure Formatted (k k' : Code.Relisfs) : Prop where
  magic : outcome k.ata.commands 0 = true → read32 (k'.ata.blocks 0) 0 = RELISFS_MAGIC
  old_magic : outcome k.ata.commands 0 = false → k'.ata.blocks 0 = k.ata.blocks 0
  root : outcome k.ata.commands 3 = true → RelisfsInode.at (k'.ata.blocks 1) 76 = root_inode
  zero : outcome k.ata.commands 3 = false → outcome k.ata.commands 1 = true →
    ∀ x < 512, k'.ata.blocks 1 x = 0
  old_root : outcome k.ata.commands 3 = false → outcome k.ata.commands 1 = false →
    k'.ata.blocks 1 = k.ata.blocks 1
  commands : k'.ata.commands = k.ata.commands.drop 4
  heap_ptr : k'.heap_ptr = k.heap_ptr
  i_private : k'.i_private = k.i_private

structure Wrote (k k' : Code.Relisfs) (b : Nat) : Prop where
  block_buf : k'.block_buf = k.block_buf
  done : outcome k.ata.commands 0 = true → SameBlock k.block_buf (k'.ata.blocks b)
  failed : outcome k.ata.commands 0 = false → k'.ata.blocks b = k.ata.blocks b
  others : ∀ c ≠ b, k'.ata.blocks c = k.ata.blocks c
  commands : k'.ata.commands = k.ata.commands.tail
  heap_ptr : k'.heap_ptr = k.heap_ptr
  i_private : k'.i_private = k.i_private

theorem write_block_wrote (k : Code.Relisfs) (lba : BitVec 32) :
    Wrote k (k.write_block lba).2 (ata_lba lba) := by
  cases h : outcome k.ata.commands 0 with
  | false =>
    rw [write_block_fails h]
    exact ⟨rfl, by simp [h], fun _ => rfl, fun _ _ => rfl, rfl, rfl, rfl⟩
  | true =>
    obtain ⟨block, heq, hblock⟩ := write_block_done lba h
    rw [heq]
    refine ⟨rfl, fun _ => ?_, by simp [h], fun c hc => ?_, rfl, rfl, rfl⟩
    · dsimp only
      rwa [Function.update_self]
    · exact Function.update_of_ne hc _ _

structure KeepsDisk (k k' : Code.Relisfs) : Prop where
  blocks : k'.ata.blocks = k.ata.blocks
  commands : k'.ata.commands = k.ata.commands.tail
  heap_ptr : k'.heap_ptr = k.heap_ptr
  i_private : k'.i_private = k.i_private

theorem read_block_keeps (k : Code.Relisfs) (lba : BitVec 32) : KeepsDisk k (k.read_block lba).2 := by
  cases h : outcome k.ata.commands 0 with
  | false =>
    rw [read_block_fails h]
    exact ⟨rfl, rfl, rfl, rfl⟩
  | true =>
    obtain ⟨buf, heq, -⟩ := read_block_done lba h
    rw [heq]
    exact ⟨rfl, rfl, rfl, rfl⟩

theorem relisfs_format_spec (k : Code.Relisfs) :
    ∃ k', relisfs_format k = .ok k' ∧ Formatted k k' := by
  unfold relisfs_format
  dsimp only
  simp only [copy_inode, bind, Except.bind, pure, Except.pure, Except.ok.injEq, exists_eq_left']
  set sb := write32 (write32 (write32 (write32 k.block_buf 0 RELISFS_MAGIC) 4 64) 8 1) 12 2 with hsb
  set k1 := ({ k with block_buf := sb }.write_block 0).2 with hk1
  have h1 : Wrote { k with block_buf := sb } k1 0 := write_block_wrote _ 0
  set k2 := ({ k1 with block_buf := kmemset k1.block_buf 0 0 512 }.write_block 1).2 with hk2
  have h2 : Wrote { k1 with block_buf := kmemset k1.block_buf 0 0 512 } k2 1 := write_block_wrote _ 1
  set k3 := (k2.read_block 1).2 with hk3
  have h3 : KeepsDisk k2 k3 := read_block_keeps _ _
  set k4 :=
    ({ k3 with block_buf := kmemcpy_into k3.block_buf root_inode.bytes 76 0 76 }.write_block 1).2
    with hk4
  have h4 : Wrote { k3 with block_buf := kmemcpy_into k3.block_buf root_inode.bytes 76 0 76 } k4 1 :=
    write_block_wrote _ 1
  have hcommands : k3.ata.commands = k.ata.commands.drop 3 := by
    rw [h3.commands, h2.commands]
    change k1.ata.commands.tail.tail = _
    rw [h1.commands]
    simp only [← List.drop_one, List.drop_drop]
  have hlast : outcome k3.ata.commands 0 = outcome k.ata.commands 3 := by
    rw [hcommands, outcome, outcome, List.getElem?_drop]
  have hsecond : outcome k1.ata.commands 0 = outcome k.ata.commands 1 := by
    rw [h1.commands, outcome_tail]
  have hblock0 : k4.ata.blocks 0 = k1.ata.blocks 0 := by
    rw [h4.others 0 (by omega)]
    change k3.ata.blocks 0 = _
    rw [h3.blocks, h2.others 0 (by omega)]
  have hblock1 : outcome k.ata.commands 3 = false → k4.ata.blocks 1 = k2.ata.blocks 1 := by
    intro hfail
    rw [h4.failed (hlast.trans hfail)]
    change k3.ata.blocks 1 = _
    rw [h3.blocks]
  refine ⟨?_, ?_, ?_, ?_, ?_, ?_, ?_, ?_⟩
  · intro hdone
    rw [hblock0, (h1.done hdone).read32 (by omega), hsb, read32_write32_ne _ _ (by omega),
      read32_write32_ne _ _ (by omega), read32_write32_ne _ _ (by omega), read32_write32_self]
  · intro hfail
    rw [hblock0, h1.failed hfail]
  · intro hdone
    rw [(h4.done (hlast.trans hdone)).inode]
    exact inode_at_copy _ _
  · intro hfail hdone x hx
    rw [hblock1 hfail, h2.done (hsecond.trans hdone) x hx]
    dsimp only
    rw [kmemset_apply, if_pos (by omega)]
  · intro hfail hfail'
    rw [hblock1 hfail, h2.failed (hsecond.trans hfail')]
    exact h1.others 1 (by omega)
  · rw [h4.commands]
    change k3.ata.commands.tail = _
    rw [hcommands, ← List.drop_one, List.drop_drop]
  · rw [h4.heap_ptr]
    change k3.heap_ptr = _
    rw [h3.heap_ptr, h2.heap_ptr]
    exact h1.heap_ptr
  · rw [h4.i_private]
    change k3.i_private = _
    rw [h3.i_private, h2.i_private]
    exact h1.i_private

/-! ## The mount -/

theorem relisfs_mount_disk_spec (k : Code.Relisfs) : ∃ done k', relisfs_mount_disk k = .ok (done, k') ∧
    k'.heap_ptr = k.heap_ptr ∧ done = outcome k.ata.commands 0 ∧
    (done = false → k'.ata.blocks = k.ata.blocks) ∧
    (done = true → read32 (k.ata.blocks 0) 0 = RELISFS_MAGIC →
      k'.ata = { k.ata with commands := k.ata.commands.tail }) ∧
    (done = true → read32 (k.ata.blocks 0) 0 ≠ RELISFS_MAGIC →
      ∃ k1, k1.ata = { k.ata with commands := k.ata.commands.tail } ∧ Formatted k1 k') := by
  unfold relisfs_mount_disk
  cases h : outcome k.ata.commands 0 with
  | false =>
    rw [read_block_fails h]
    exact ⟨false, _, rfl, rfl, rfl, fun _ => rfl, by simp, by simp⟩
  | true =>
    obtain ⟨buf, heq, hbuf⟩ := read_block_done 0 h
    have hword : read32 buf 0 = read32 (k.ata.blocks 0) 0 := hbuf.read32 (by omega)
    rw [heq]
    dsimp only
    rw [hword]
    by_cases hmagic : read32 (k.ata.blocks 0) 0 = RELISFS_MAGIC
    · simp only [Bool.not_true, Bool.false_eq_true, if_false, hmagic, ne_eq, not_true_eq_false]
      exact ⟨true, _, rfl, rfl, rfl, by simp, fun _ _ => rfl, by simp⟩
    · obtain ⟨k', hformat, hk'⟩ := relisfs_format_spec
        { k with block_buf := buf, ata := { k.ata with commands := k.ata.commands.tail } }
      simp only [Bool.not_true, Bool.false_eq_true, if_false, ne_eq, hmagic, not_false_eq_true, if_true]
      rw [hformat]
      exact ⟨true, k', rfl, hk'.heap_ptr, rfl, by simp, fun _ h => h.elim, fun _ _ => ⟨_, rfl, hk'⟩⟩

def HasRoom (heap_ptr : BitVec 32) : Prop := heap_ptr.toNat + 460 ≤ 4194304

theorem hasRoom_zero : HasRoom 0 := by
  unfold HasRoom
  decide

theorem kmalloc_keeps {size : BitVec 64} (h : k.kmalloc_object size = .ok k') :
    ∃ heap_ptr, k' = { k with heap_ptr := heap_ptr } := by
  unfold Code.Relisfs.kmalloc_object at h
  split at h
  · cases h
  · cases h
    exact ⟨_, rfl⟩

theorem kmalloc_room (size : BitVec 64) (hsize : size.toNat < 4294967296)
    (hroom : k.heap_ptr.toNat + size.toNat ≤ 4194304) : ∃ heap_ptr : BitVec 32,
      k.kmalloc_object size = .ok { k with heap_ptr := heap_ptr } ∧
      heap_ptr.toNat = k.heap_ptr.toNat + (size.toNat + 15) / 16 * 16 := by
  unfold Code.Relisfs.kmalloc_object
  rcases kmalloc_spec k.heap_ptr size hsize with ⟨-, hfull⟩ | ⟨heap_ptr, hk, -, hptr⟩
  · omega
  · rw [hk]
    exact ⟨heap_ptr, rfl, hptr⟩

structure Mounted (k k' : Code.Relisfs) : Prop where
  magic : read32 (k'.ata.blocks 0) 0 = RELISFS_MAGIC
  inode : k'.i_private = some (RelisfsInode.at (k'.ata.blocks 1) 76)
  found : read32 (k.ata.blocks 0) 0 = RELISFS_MAGIC → k'.ata.blocks = k.ata.blocks
  made : read32 (k.ata.blocks 0) 0 ≠ RELISFS_MAGIC → RelisfsInode.at (k'.ata.blocks 1) 76 = root_inode
  commands : k'.ata.commands = []

theorem mounted_of_disk {k1 : Code.Relisfs} (h : k.ata.commands = [])
    (hdisk : relisfs_mount_disk k = .ok (true, k1)) :
    k1.ata.commands = [] ∧ k1.heap_ptr = k.heap_ptr ∧
      read32 (k1.ata.blocks 0) 0 = RELISFS_MAGIC ∧
      (read32 (k.ata.blocks 0) 0 = RELISFS_MAGIC → k1.ata.blocks = k.ata.blocks) ∧
      (read32 (k.ata.blocks 0) 0 ≠ RELISFS_MAGIC →
        RelisfsInode.at (k1.ata.blocks 1) 76 = root_inode) := by
  obtain ⟨done, k', hk', hheap, -, -, hfound, hmade⟩ := relisfs_mount_disk_spec k
  cases hk'.symm.trans hdisk
  by_cases hmagic : read32 (k.ata.blocks 0) 0 = RELISFS_MAGIC
  · have hata := hfound rfl hmagic
    rw [hata, h]
    exact ⟨rfl, hheap, hmagic, fun _ => rfl, fun h => absurd hmagic h⟩
  · obtain ⟨k0, hata, hf⟩ := hmade rfl hmagic
    rw [h] at hata
    have hdone : ∀ i, outcome k0.ata.commands i = true := by
      intro i
      rw [hata]
      rfl
    refine ⟨?_, hheap, hf.magic (hdone 0), fun h => absurd h hmagic, fun _ => hf.root (hdone 3)⟩
    rw [hf.commands, hata]
    rfl

theorem relisfs_mount_mounted (h : k.ata.commands = []) (hmount : relisfs_mount k = .ok (true, k')) :
    Mounted k k' := by
  unfold relisfs_mount at hmount
  obtain ⟨⟨done, k1⟩, hdisk, hmount⟩ := bind_ok.mp hmount
  cases done with
  | false => cases hmount
  | true =>
    obtain ⟨hcommands, -, hmagic, hfound, hmade⟩ := mounted_of_disk h hdisk
    simp only [Bool.not_true, Bool.false_eq_true, if_false] at hmount
    obtain ⟨k2, h2, hmount⟩ := bind_ok.mp hmount
    obtain ⟨k3, h3, hmount⟩ := bind_ok.mp hmount
    obtain ⟨k4, h4, hmount⟩ := bind_ok.mp hmount
    obtain ⟨p2, rfl⟩ := kmalloc_keeps h2
    obtain ⟨p3, rfl⟩ := kmalloc_keeps h3
    obtain ⟨p4, rfl⟩ := kmalloc_keeps h4
    obtain ⟨buf, heq, hbuf⟩ := read_block_done (k := { k1 with heap_ptr := p3 }) 1 (by simp [hcommands])
    rw [heq] at hmount
    cases hmount
    exact ⟨hmagic, congrArg some hbuf.inode, hfound, hmade, by simp [hcommands]⟩

theorem relisfs_mount_done {done : Bool} (h : k.ata.commands = [])
    (hmount : relisfs_mount k = .ok (done, k')) : done = true := by
  obtain ⟨done', k0, hdisk', -, hdone, -⟩ := relisfs_mount_disk_spec k
  rw [h, outcome_nil] at hdone
  subst hdone
  unfold relisfs_mount at hmount
  obtain ⟨⟨done', k1⟩, hdisk, hmount⟩ := bind_ok.mp hmount
  cases hdisk'.symm.trans hdisk
  obtain ⟨k2, -, hmount⟩ := bind_ok.mp hmount
  obtain ⟨k3, -, hmount⟩ := bind_ok.mp hmount
  obtain ⟨k4, -, hmount⟩ := bind_ok.mp hmount
  cases hmount
  rfl

theorem relisfs_mount_room (h : k.ata.commands = []) (hroom : HasRoom k.heap_ptr) :
    ∃ k', relisfs_mount k = .ok (true, k') := by
  unfold HasRoom at hroom
  obtain ⟨done, k1, hdisk, hheap, hdone, -⟩ := relisfs_mount_disk_spec k
  rw [h, outcome_nil] at hdone
  subst hdone
  obtain ⟨p2, h2, hp2⟩ := kmalloc_room (k := k1) sizeof_dentry (by decide)
    (by rw [hheap, show sizeof_dentry.toNat = 344 from rfl]; omega)
  rw [hheap, show sizeof_dentry.toNat = 344 from rfl] at hp2
  obtain ⟨p3, h3, hp3⟩ := kmalloc_room (k := { k1 with heap_ptr := p2 }) sizeof_inode (by decide)
    (by rw [show sizeof_inode.toNat = 32 from rfl]; dsimp only; omega)
  rw [show sizeof_inode.toNat = 32 from rfl] at hp3
  have hkeep := read_block_keeps { k1 with heap_ptr := p3 } 1
  obtain ⟨p4, h4, -⟩ := kmalloc_room (k := (({ k1 with heap_ptr := p3 } : Code.Relisfs).read_block 1).2)
    (BitVec.ofNat 64 sizeof_relisfs_inode) (by decide)
    (by
      rw [hkeep.heap_ptr, show (BitVec.ofNat 64 sizeof_relisfs_inode).toNat = 76 from rfl]
      dsimp only at hp3 ⊢
      omega)
  exact ⟨_, bind_ok.mpr ⟨_, hdisk, bind_ok.mpr ⟨_, h2, bind_ok.mpr ⟨_, h3, bind_ok.mpr ⟨_, h4, rfl⟩⟩⟩⟩⟩

/-! ## A format that is cut short -/

def IsFreshRoot (n : RelisfsInode) : Prop := n.used = 1 ∧ n.size = 0 ∧ n.direct_block = 2

/-- The commands of a mount that formats are: read block 0, write the superblock, clear block 1,
read it, write it with the root inode. The mark stays out, or the root inode is written, or the
old block 1 stays and has one already. -/
def formatSurvives (blocks : Nat → Mem) (commands : List Bool) : Prop :=
  outcome commands 0 = false ∨ outcome commands 1 = false ∨ outcome commands 4 = true ∨
    (outcome commands 2 = false ∧ IsFreshRoot (RelisfsInode.at (blocks 1) 76))

theorem inode_of_zero {m : Mem} (h : ∀ x < 512, m x = 0) : (RelisfsInode.at m 76).used = 0 := by
  change read32 m 76 = 0
  rw [read32_congr (m := fun _ => 0) (a := 0) fun i hi => h (76 + i) (by omega)]
  rfl

/-- After a format of which only some commands took effect, a mount finds a new root or not. -/
theorem interrupted_format {blocks : Nat → Mem} {commands : List Bool} {block_buf block_buf' : Mem}
    {heap_ptr heap_ptr' : BitVec 32} {done : Bool} (hmagic : read32 (blocks 0) 0 ≠ RELISFS_MAGIC)
    (hcut : relisfs_mount_disk ⟨⟨blocks, commands⟩, block_buf, heap_ptr, none⟩ = .ok (done, k))
    (hmount : relisfs_mount ⟨⟨k.ata.blocks, []⟩, block_buf', heap_ptr', none⟩ = .ok (true, k')) :
    (∃ n, k'.i_private = some n ∧ IsFreshRoot n) ↔ formatSurvives blocks commands := by
  have hm := relisfs_mount_mounted rfl hmount
  rw [hm.inode]
  simp only [Option.some.injEq, exists_eq_left']
  have hroot : read32 (k.ata.blocks 0) 0 ≠ RELISFS_MAGIC →
      IsFreshRoot (RelisfsInode.at (k'.ata.blocks 1) 76) := by
    intro hno
    rw [hm.made hno]
    exact ⟨rfl, rfl, rfl⟩
  obtain ⟨done', k1, hk1, -, hdone, hnull, -, hmade⟩ :=
    relisfs_mount_disk_spec ⟨⟨blocks, commands⟩, block_buf, heap_ptr, none⟩
  cases hk1.symm.trans hcut
  cases done with
  | false =>
    -- The first read fails, and the next mount formats.
    have hsame : k.ata.blocks = blocks := hnull rfl
    exact ⟨fun _ => .inl hdone.symm, fun _ => hroot (hsame ▸ hmagic)⟩
  | true =>
    obtain ⟨k0, hata, hf⟩ := hmade rfl hmagic
    have hshift : ∀ i, outcome k0.ata.commands i = outcome commands (i + 1) := by
      intro i
      rw [hata, outcome_tail]
    cases hmark : outcome commands 1 with
    | false =>
      have hblock := hf.old_magic ((hshift 0).trans hmark)
      rw [hata] at hblock
      exact ⟨fun _ => .inr (.inl hmark), fun _ => hroot (by rw [hblock]; exact hmagic)⟩
    | true =>
      rw [hm.found (hf.magic ((hshift 0).trans hmark))]
      unfold formatSurvives
      rw [← hdone, hmark]
      simp only [Bool.true_eq_false, false_or]
      cases hlast : outcome commands 4 with
      | true =>
        rw [hf.root ((hshift 3).trans hlast)]
        exact ⟨fun _ => .inl rfl, fun _ => ⟨rfl, rfl, rfl⟩⟩
      | false =>
        simp only [Bool.false_eq_true, false_or]
        cases hclear : outcome commands 2 with
        | true =>
          have hzero := inode_of_zero (hf.zero ((hshift 3).trans hlast) ((hshift 1).trans hclear))
          constructor
          · rintro ⟨hused, -⟩
            rw [hzero] at hused
            cases hused
          · rintro ⟨habs, -⟩
            cases habs
        | false =>
          have hblock := hf.old_root ((hshift 3).trans hlast) ((hshift 1).trans hclear)
          rw [hata] at hblock
          rw [hblock]
          simp

/-- The power fails before the first write, and the next mount makes the file system. -/
theorem interrupted_format_small :
    ∃ k k', relisfs_mount_disk ⟨⟨fun _ _ => 0, [true, false, false, false, false]⟩,
      fun _ => 0, 0, none⟩ = .ok (true, k) ∧
    relisfs_mount ⟨⟨k.ata.blocks, []⟩, fun _ => 0, 0, none⟩ = .ok (true, k') ∧
    ∃ n, k'.i_private = some n ∧ IsFreshRoot n := by
  obtain ⟨done, k, hcut, -, rfl, -⟩ :=
    relisfs_mount_disk_spec ⟨⟨fun _ _ => 0, [true, false, false, false, false]⟩, fun _ => 0, 0, none⟩
  obtain ⟨k', hmount⟩ := relisfs_mount_room (k := ⟨⟨k.ata.blocks, []⟩, fun _ => 0, 0, none⟩) rfl
    hasRoom_zero
  exact ⟨k, k', hcut, hmount, (interrupted_format (by decide) hcut hmount).mpr (.inr (.inl rfl))⟩

/-- The power fails after the superblock is written. The next mount takes the empty disk for a file
system, and its root is not in use. -/
theorem format_mistaken :
    ∃ k k' n, relisfs_mount_disk ⟨⟨fun _ _ => 0, [true, true, false, false, false]⟩,
      fun _ => 0, 0, none⟩ = .ok (true, k) ∧
    relisfs_mount ⟨⟨k.ata.blocks, []⟩, fun _ => 0, 0, none⟩ = .ok (true, k') ∧
    k'.i_private = some n ∧ n.used = 0 := by
  obtain ⟨done, k, hcut, -, rfl, -, -, hmade⟩ :=
    relisfs_mount_disk_spec ⟨⟨fun _ _ => 0, [true, true, false, false, false]⟩, fun _ => 0, 0, none⟩
  obtain ⟨k', hmount⟩ := relisfs_mount_room (k := ⟨⟨k.ata.blocks, []⟩, fun _ => 0, 0, none⟩) rfl
    hasRoom_zero
  have hm := relisfs_mount_mounted rfl hmount
  obtain ⟨k0, hata, hf⟩ := hmade rfl (by decide)
  have hmark : outcome k0.ata.commands 0 = true := by rw [hata]; rfl
  have hlost : outcome k0.ata.commands 3 = false ∧ outcome k0.ata.commands 1 = false := by
    rw [hata]
    exact ⟨rfl, rfl⟩
  have hblock := hf.old_root hlost.1 hlost.2
  rw [hata] at hblock
  refine ⟨k, k', _, hcut, hmount, hm.inode, ?_⟩
  rw [hm.found (hf.magic hmark)]
  apply inode_of_zero
  intro x _
  dsimp only
  rw [hblock]

end Relis.Relisfs
