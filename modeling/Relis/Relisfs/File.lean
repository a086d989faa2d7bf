import Relis.Lib.ByteFile
import Relis.Relisfs.Mount

/-!
# Reads and writes of the root file

On a drive that carries out all commands, the root is one file of bytes with any number of
open positions.
-/

open Relis.Bytes Relis.Run Relis.Code Relis.ByteFile

namespace Relis.Relisfs

variable {k k' : Code.Relisfs} {n : RelisfsInode} {f_pos : BitVec 32} {count : BitVec 64} {buf : Mem}

/-! ## One call -/

theorem toNat_sum (f_pos : BitVec 32) (count : BitVec 64)
    (h : f_pos.toNat + count.toNat < 4294967296) :
    (f_pos + count.setWidth 32).toNat = f_pos.toNat + count.toNat := by
  rw [BitVec.toNat_add, BitVec.toNat_setWidth]
  omega

theorem clipped_count (hpos : f_pos < n.size)
    (hsum : f_pos.toNat + count.toNat < 18446744073709551616) :
    (if f_pos.setWidth 64 + count > n.size.setWidth 64 then (n.size - f_pos).setWidth 64 else
      count).toNat =
      min count.toNat (n.size.toNat - f_pos.toNat) := by
  have hlt := n.size.isLt
  rw [BitVec.lt_def] at hpos
  have hadd : (f_pos.setWidth 64 + count).toNat = f_pos.toNat + count.toNat := by
    rw [BitVec.toNat_add, BitVec.toNat_setWidth]
    omega
  have hsize : (n.size.setWidth 64).toNat = n.size.toNat := by
    rw [BitVec.toNat_setWidth]
    omega
  split_ifs with hclip
  · rw [gt_iff_lt, BitVec.lt_def, hadd, hsize] at hclip
    rw [BitVec.toNat_setWidth, BitVec.toNat_sub]
    omega
  · rw [gt_iff_lt, BitVec.lt_def, hadd, hsize] at hclip
    omega

structure KeepsFile (k k' : Code.Relisfs) : Prop where
  blocks : k'.ata.blocks = k.ata.blocks
  commands : k.ata.commands = [] → k'.ata.commands = []
  i_private : k'.i_private = k.i_private

theorem KeepsDisk.file (h : KeepsDisk k k') : KeepsFile k k' :=
  ⟨h.blocks, fun hc => by rw [h.commands, hc]; rfl, h.i_private⟩

theorem relisfs_read_spec (f_pos : BitVec 32) (count : BitVec 64) (hinode : k.i_private = some n)
    (hsize : n.size.toNat ≤ 512) (hsum : f_pos.toNat + count.toNat < 18446744073709551616) :
    ∃ ret data pos k', relisfs_read k f_pos count = .ok (ret, data, pos, k') ∧ KeepsFile k k' ∧
      ((ret = -1 ∧ data = [] ∧ pos = f_pos ∧ (n.used = 0 ∨ outcome k.ata.commands 0 = false)) ∨
        (data = (List.range (min count.toNat (n.size.toNat - f_pos.toNat))).map
            (fun i => k.ata.blocks (ata_lba n.direct_block) (f_pos.toNat + i)) ∧
          ret.toNat = data.length ∧ pos.toNat = f_pos.toNat + data.length)) := by
  unfold relisfs_read
  simp only [hinode]
  by_cases hused : n.used = 0
  · rw [if_pos hused]
    exact ⟨_, _, _, _, rfl, ⟨rfl, id, rfl⟩, .inl ⟨rfl, rfl, rfl, .inl hused⟩⟩
  rw [if_neg hused]
  by_cases hend : f_pos ≥ n.size
  · rw [if_pos hend]
    rw [ge_iff_le, BitVec.le_def] at hend
    refine ⟨_, _, _, _, rfl, ⟨rfl, id, rfl⟩, .inr ⟨?_, rfl, rfl⟩⟩
    rw [show n.size.toNat - f_pos.toNat = 0 by omega, Nat.min_zero]
    rfl
  rw [if_neg hend]
  have hpos : f_pos < n.size := by
    rw [BitVec.lt_def]
    rw [ge_iff_le, BitVec.le_def] at hend
    omega
  have hclip := clipped_count (n := n) hpos hsum
  rw [BitVec.lt_def] at hpos
  generalize (if f_pos.setWidth 64 + count > n.size.setWidth 64 then (n.size - f_pos).setWidth
    64 else count) = c
    at hclip ⊢
  cases hdone : outcome k.ata.commands 0 with
  | false =>
    have hkeep := read_block_keeps k n.direct_block
    rw [read_block_fails hdone] at hkeep ⊢
    exact ⟨_, _, _, _, rfl, hkeep.file, .inl ⟨rfl, rfl, rfl, .inr rfl⟩⟩
  | true =>
    obtain ⟨block_buf, heq, hblock⟩ := read_block_done n.direct_block hdone
    rw [heq]
    simp only [Bool.not_true, Bool.false_eq_true, if_false, Code.Relisfs.copy_out]
    rw [hclip, if_pos (by omega)]
    refine ⟨_, _, _, _, rfl, ⟨rfl, fun hc => by simp [hc], rfl⟩, .inr ⟨?_, ?_, ?_⟩⟩
    · apply List.map_congr_left
      intro i hi
      rw [List.mem_range] at hi
      exact hblock _ (by omega)
    · rw [hclip]
      simp
    · rw [toNat_sum _ _ (by omega), hclip]
      simp

theorem store_inode_spec (k : Code.Relisfs) (n : RelisfsInode) : ∃ k', k.store_inode n = .ok k' ∧
    k'.i_private = k.i_private ∧ (∀ c ≠ 1, k'.ata.blocks c = k.ata.blocks c) ∧
    (RelisfsInode.at (k'.ata.blocks 1) 76 = n ∨ k'.ata.blocks 1 = k.ata.blocks 1) ∧
    (k.ata.commands = [] → RelisfsInode.at (k'.ata.blocks 1) 76 = n ∧ k'.ata.commands = []) := by
  unfold Code.Relisfs.store_inode
  cases hread : outcome k.ata.commands 0 with
  | false =>
    rw [read_block_fails hread]
    refine ⟨_, rfl, rfl, fun _ _ => rfl, .inr rfl, fun hc => ?_⟩
    rw [hc] at hread
    cases hread
  | true =>
    obtain ⟨block_buf, heq, -⟩ := read_block_done 1 hread
    rw [heq]
    dsimp only
    rw [if_pos rfl, copy_inode]
    have hw := write_block_wrote { k with
      block_buf := kmemcpy_into block_buf n.bytes 76 0 76, ata :=
        { k.ata with commands := k.ata.commands.tail } } 1
    refine ⟨_, rfl, hw.i_private, hw.others, ?_, fun hc => ⟨?_, ?_⟩⟩
    · cases hdone : outcome k.ata.commands.tail 0 with
      | false => exact .inr (hw.failed hdone)
      | true => exact .inl ((hw.done hdone).inode.trans (inode_at_copy _ _))
    · have hdone : outcome k.ata.commands.tail 0 = true := by
        rw [hc]
        rfl
      exact (hw.done hdone).inode.trans (inode_at_copy _ _)
    · rw [hw.commands]
      simp [hc]

structure Written (k k' : Code.Relisfs) (n n' : RelisfsInode) (f_pos : BitVec 32) (buf : Mem)
  (count : Nat) : Prop where
  superblock : k'.ata.blocks 0 = k.ata.blocks 0
  data : ∀ x < 512, k'.ata.blocks 2 x =
    if f_pos.toNat ≤ x ∧ x < f_pos.toNat + count then buf (x - f_pos.toNat) else k.ata.blocks 2 x
  inode : k'.i_private = some n'
  used : n'.used = n.used
  direct_block : n'.direct_block = n.direct_block
  size : n'.size.toNat = max n.size.toNat (f_pos.toNat + count)
  disk : RelisfsInode.at (k'.ata.blocks 1) 76 = n' ∨ k'.ata.blocks 1 = k.ata.blocks 1
  faithful : k.ata.commands = [] → RelisfsInode.at (k.ata.blocks 1) 76 = n →
    RelisfsInode.at (k'.ata.blocks 1) 76 = n' ∧ k'.ata.commands = []

theorem copied_data {block block_buf : Mem} (hblock : SameBlock block block_buf) (d n x : Nat)
    (hx : x < 512) :
    kmemcpy_into block_buf buf d 0 n x = if d ≤ x ∧ x < d + n then buf (x - d) else block x := by
  rw [kmemcpy_into_apply, hblock x hx, Nat.zero_add]

theorem relisfs_write_spec (buf : Mem) (hinode : k.i_private = some n)
    (hdirect : n.direct_block = 2) (hfit : f_pos.toNat + count.toNat ≤ 512) :
    ∃ ret pos k', relisfs_write k f_pos buf count = .ok (ret, pos, k') ∧
      ((ret = -1 ∧ pos = f_pos ∧ KeepsFile k k' ∧
          (n.used = 0 ∨ outcome k.ata.commands 0 = false ∨ outcome k.ata.commands 1 = false)) ∨
        (ret = count ∧ pos.toNat = f_pos.toNat + count.toNat ∧
          ∃ n', Written k k' n n' f_pos buf count.toNat)) := by
  have hpos := toNat_sum f_pos count (by omega)
  unfold relisfs_write
  simp only [hinode, hdirect]
  by_cases hused : n.used = 0
  · rw [if_pos hused]
    exact ⟨_, _, _, rfl, .inl ⟨rfl, rfl, ⟨rfl, id, rfl⟩, .inl hused⟩⟩
  rw [if_neg hused]
  cases hread : outcome k.ata.commands 0 with
  | false =>
    have hkeep := read_block_keeps k 2
    rw [read_block_fails hread] at hkeep ⊢
    exact ⟨_, _, _, rfl, .inl ⟨rfl, rfl, hkeep.file, .inr (.inl rfl)⟩⟩
  | true =>
    obtain ⟨block_buf, heq, hblock⟩ := read_block_done 2 hread
    rw [heq]
    simp only [Bool.not_true, Bool.false_eq_true, if_false, Code.Relisfs.copy_in, if_pos hfit,
      bind, Except.bind]
    set k1 : Code.Relisfs := { k with
      block_buf := kmemcpy_into block_buf buf f_pos.toNat 0 count.toNat
      ata := { k.ata with commands := k.ata.commands.tail } } with hk1
    cases hdone : outcome k.ata.commands 1 with
    | false =>
      rw [write_block_fails (k := k1) (by rwa [hk1, outcome_tail])]
      refine ⟨_, _, _, rfl, .inl ⟨rfl, rfl, ⟨rfl, fun hc => ?_, rfl⟩, .inr (.inr rfl)⟩⟩
      rw [hc] at hdone
      cases hdone
    | true =>
      obtain ⟨block, heq', hblock'⟩ := write_block_done (k := k1) 2 (by rwa [hk1, outcome_tail])
      have hdata : ∀ x < 512, block x = if f_pos.toNat ≤ x ∧
        x < f_pos.toNat + count.toNat then buf (x - f_pos.toNat)
          else k.ata.blocks 2 x := fun x hx => (hblock' x hx).trans (copied_data hblock _ _ x hx)
      rw [heq']
      simp only [Bool.not_true, Bool.false_eq_true, if_false]
      by_cases hgrow : f_pos + count.setWidth 32 > n.size
      · rw [if_pos hgrow]
        rw [gt_iff_lt, BitVec.lt_def, hpos] at hgrow
        set n' : RelisfsInode := ⟨n.used, f_pos + count.setWidth 32, 2, n.name⟩ with hn'
        obtain ⟨k', hstore, hprivate, hothers, hdisk, hfaithful⟩ := store_inode_spec { k1 with
          ata := ⟨Function.update k1.ata.blocks (ata_lba 2) block, k1.ata.commands.tail⟩,
            i_private := some n' } n'
        rw [hstore]
        refine ⟨_, _, _, rfl, .inr ⟨rfl, hpos, n', hothers 0 (by omega), ?_, hprivate, rfl, hdirect.symm, ?_,
          hdisk, ?_⟩⟩
        · intro x hx
          rw [hothers 2 (by omega)]
          exact hdata x hx
        · rw [hn', hpos]
          omega
        · intro hc _
          apply hfaithful
          simp [hk1, hc]
      · rw [if_neg hgrow]
        rw [gt_iff_lt, BitVec.lt_def, hpos] at hgrow
        refine ⟨_, _, _, rfl, .inr ⟨rfl, hpos, n, rfl, hdata, hinode, rfl, rfl, by omega, .inr rfl, ?_⟩⟩
        intro hc hdisk
        exact ⟨hdisk, by simp [hk1, hc]⟩

/-! ## Runs -/

/-- The open files of the root by their `f_pos`, and what the calls have done so far. -/
structure Opened where
  fs : Code.Relisfs
  files : List (BitVec 32)
  trace : List (Event (BitVec 8))

/-- A remount has a new heap and all of its commands are carried out. It comes with the list for the
commands after it. -/
inductive FsOp
  | open
  | read (i : Nat) (count : BitVec 64)
  | write (i : Nat) (buf : Mem) (count : BitVec 64)
  | remount (heap_ptr : BitVec 32) (commands : List Bool)

def bytesAt (buf : Mem) (count : Nat) : List (BitVec 8) := (List.range count).map buf

def withCommands (k : Code.Relisfs) (commands : List Bool) : Code.Relisfs :=
  { k with ata := { k.ata with commands := commands } }

def FsOp.step (t : Opened) : FsOp → Except Halt Opened
  | .open => .ok { t with files := t.files ++ [0] }
  | .read i count =>
    match t.files[i]? with
    | none => .error .null_object
    | some f_pos => do
      let (ret, buf, pos, fs) ← relisfs_read t.fs f_pos count
      return ⟨fs, t.files.set i pos, .read f_pos.toNat ret.toInt buf :: t.trace⟩
  | .write i buf count =>
    match t.files[i]? with
    | none => .error .null_object
    | some f_pos => do
      let (ret, pos, fs) ← relisfs_write t.fs f_pos buf count
      return ⟨fs, t.files.set i pos, .write f_pos.toNat ret.toInt (bytesAt buf count.toNat) :: t.trace⟩
  | .remount heap_ptr commands => do
    let (_, fs) ← relisfs_mount ⟨⟨t.fs.ata.blocks, []⟩, fun _ => 0, heap_ptr, none⟩
    return ⟨withCommands fs commands, [], t.trace⟩

/-! ## The file of bytes behind the root -/

def FsOp.toCall : FsOp → Call (BitVec 8)
  | .open => .open
  | .read i count => .read i count.toNat
  | .write i buf count => .write i (bytesAt buf count.toNat)
  | .remount _ _ => .close_all

/-- The drive carries out all commands after a remount, and the heap has room for it. -/
def FsOp.Faithful : FsOp → Prop
  | .remount heap_ptr commands => HasRoom heap_ptr ∧ commands = []
  | _ => True

structure Stored (t : Opened) (f : File (BitVec 8)) : Prop where
  magic : read32 (t.fs.ata.blocks 0) 0 = RELISFS_MAGIC
  inode : ∃ n, t.fs.i_private = some n ∧ RelisfsInode.at (t.fs.ata.blocks 1) 76 = n ∧ n.used = 1 ∧
    n.direct_block = 2 ∧ n.size.toNat = f.content.length
  data : ∀ i < f.content.length, f.content[i]? = some (t.fs.ata.blocks 2 i)
  length : f.content.length ≤ 512
  commands : t.fs.ata.commands = []
  files : t.files.map BitVec.toNat = f.positions
  trace : t.trace = f.trace

variable {t t' : Opened} {f f' : File (BitVec 8)}

theorem Stored.file (h : Stored t f) {i pos : Nat} (hpos : f.positions[i]? = some pos) :
    ∃ f_pos, t.files[i]? = some f_pos ∧ f_pos.toNat = pos := by
  rw [← h.files, List.getElem?_map, Option.map_eq_some_iff] at hpos
  exact hpos

theorem Stored.slice (h : Stored t f) (pos count : Nat) :
    (List.range (min count (f.content.length - pos))).map (fun i => t.fs.ata.blocks 2 (pos + i)) =
      (f.content.drop pos).take count := by
  apply List.ext_getElem?
  intro i
  rcases Nat.lt_or_ge i (min count (f.content.length - pos)) with hi | hi
  · rw [List.getElem?_map, List.getElem?_range hi, List.getElem?_take_of_lt (by omega),
      List.getElem?_drop, h.data (pos + i) (by omega)]
    rfl
  · rw [List.getElem?_eq_none (by simp; omega), List.getElem?_eq_none (by simp; omega)]

theorem toInt_of_lt {x : BitVec 64} (h : x.toNat ≤ 512) : x.toInt = x.toNat :=
  BitVec.toInt_eq_toNat_of_lt (by omega)

theorem stored_read {i : Nat} (h : Stored t f) (hstep : f.step 512 (.read i count.toNat) = .ok f') :
    ∃ t', FsOp.step t (.read i count) = .ok t' ∧ Stored t' f' := by
  unfold File.step at hstep
  dsimp only at hstep
  split at hstep
  · cases hstep
  · rename_i pos hpos
    split_ifs at hstep with hfit
    cases hstep
    obtain ⟨f_pos, hfile, rfl⟩ := h.file hpos
    obtain ⟨n, hinode, hdisk, hused, hdirect, hsize⟩ := h.inode
    have hlen := h.length
    obtain ⟨ret, data, pos, fs, hread, hkeep, hcase⟩ := relisfs_read_spec f_pos count hinode
      (by omega) (by omega)
    rcases hcase with ⟨-, -, -, hbad⟩ | ⟨hdata, hret, hpos'⟩
    · rw [hused, h.commands] at hbad
      rcases hbad with hbad | hbad <;> cases hbad
    · rw [hdirect, show ata_lba 2 = 2 from rfl, hsize, h.slice] at hdata
      have hshort : data.length ≤ 512 := by
        rw [hdata, List.length_take, List.length_drop]
        omega
      refine ⟨⟨fs, t.files.set i pos, .read f_pos.toNat ret.toInt data :: t.trace⟩, ?_, ?_⟩
      · simp only [FsOp.step, hfile, hread]
        rfl
      · refine ⟨by rw [hkeep.blocks]; exact h.magic, ⟨n, ?_⟩, by rw [hkeep.blocks]; exact h.data, hlen,
          hkeep.commands h.commands, ?_, ?_⟩
        · rw [hkeep.i_private, hkeep.blocks]
          exact ⟨hinode, hdisk, hused, hdirect, hsize⟩
        · rw [List.map_set, h.files, hpos', hdata]
        · rw [toInt_of_lt (by omega), hret, hdata, h.trace]

theorem length_bytesAt (buf : Mem) (count : Nat) : (bytesAt buf count).length = count :=
  by simp [bytesAt]

theorem getElem?_bytesAt {count i : Nat} (hi : i < count) :
    (bytesAt buf count)[i]? = some (buf i) := by
  simp [bytesAt, hi]

theorem stored_write {i : Nat} (h : Stored t f) (hsane : f.Sane)
    (hstep : f.step 512 (.write i (bytesAt buf count.toNat)) = .ok f') :
    ∃ t', FsOp.step t (.write i buf count) = .ok t' ∧ Stored t' f' := by
  unfold File.step at hstep
  dsimp only at hstep
  rw [length_bytesAt] at hstep
  split at hstep
  · cases hstep
  · rename_i pos hpos
    have hle := hsane.positions pos (List.mem_of_getElem? hpos)
    split_ifs at hstep with hfit
    cases hstep
    obtain ⟨f_pos, hfile, rfl⟩ := h.file hpos
    obtain ⟨n, hinode, hdisk, hused, hdirect, hsize⟩ := h.inode
    obtain ⟨ret, pos, fs, hwrite, hcase⟩ := relisfs_write_spec buf hinode hdirect hfit
    rcases hcase with ⟨-, -, -, hbad⟩ | ⟨rfl, hpos', n', hw⟩
    · rw [hused, h.commands] at hbad
      rcases hbad with hbad | hbad | hbad <;> cases hbad
    · obtain ⟨hdisk', hcommands⟩ := hw.faithful h.commands hdisk
      have hlen := length_overwrite (bytesAt buf ret.toNat) hle
      rw [length_bytesAt] at hlen
      refine ⟨⟨fs, t.files.set i pos, .write f_pos.toNat ret.toInt (bytesAt buf ret.toNat) :: t.trace⟩, ?_, ?_⟩
      · simp only [FsOp.step, hfile, hwrite]
        rfl
      · refine ⟨by rw [hw.superblock]; exact h.magic, ⟨n', hw.inode, hdisk', hw.used.trans hused,
          hw.direct_block.trans hdirect, ?_⟩, ?_, ?_, hcommands, ?_, ?_⟩
        · rw [hw.size, hlen, hsize]
        · intro j hj
          dsimp only at hj ⊢
          rw [hlen] at hj
          have := h.length
          rw [getElem?_overwrite hle, length_bytesAt, hw.data j (by omega)]
          split_ifs with hin
          · rw [getElem?_bytesAt (by omega)]
          · exact h.data j (by omega)
        · dsimp only
          rw [hlen]
          have := h.length
          omega
        · rw [List.map_set, h.files, hpos']
        · rw [toInt_of_lt (by omega), h.trace]

theorem stored_remount {heap_ptr : BitVec 32} (h : Stored t f) (hroom : HasRoom heap_ptr) :
    ∃ t', FsOp.step t (.remount heap_ptr []) = .ok t' ∧ Stored t' { f with positions := [] } := by
  obtain ⟨n, hinode, hdisk, hused, hdirect, hsize⟩ := h.inode
  obtain ⟨fs, hmount⟩ :=
    relisfs_mount_room (k := ⟨⟨t.fs.ata.blocks, []⟩, fun _ => 0, heap_ptr, none⟩) rfl hroom
  have hm := relisfs_mount_mounted rfl hmount
  have hblocks : fs.ata.blocks = t.fs.ata.blocks := hm.found h.magic
  refine ⟨⟨withCommands fs [], [], t.trace⟩, ?_, hm.magic, ⟨n, ?_⟩, ?_, h.length, rfl, rfl, h.trace⟩
  · simp only [FsOp.step, hmount]
    rfl
  · change fs.i_private = some n ∧ RelisfsInode.at (fs.ata.blocks 1) 76 = n ∧ _
    rw [hm.inode, hblocks, hdisk]
    exact ⟨rfl, rfl, hused, hdirect, hsize⟩
  · change ∀ i < f.content.length, f.content[i]? = some (fs.ata.blocks 2 i)
    rw [hblocks]
    exact h.data

theorem stored_step {op : FsOp} (h : Stored t f) (hsane : f.Sane) (hop : op.Faithful)
    (hstep : f.step 512 op.toCall = .ok f') : ∃ t', op.step t = .ok t' ∧ Stored t' f' := by
  rcases op with _ | ⟨i, count⟩ | ⟨i, buf, count⟩ | ⟨heap_ptr, commands⟩
  · cases hstep
    refine ⟨_, rfl, h.magic, h.inode, h.data, h.length, h.commands, ?_, h.trace⟩
    simp [h.files]
  · exact stored_read h hstep
  · exact stored_write h hsane hstep
  · obtain ⟨hroom, rfl⟩ := hop
    cases hstep
    exact stored_remount h hroom

/-- A write ends inside of the block, and the sum of a read does not wrap. -/
def FsOp.Bounded (t : Opened) : FsOp → Prop
  | .read i count => ∀ f_pos ∈ t.files[i]?, f_pos.toNat + count.toNat < 18446744073709551616
  | .write i _ count => ∀ f_pos ∈ t.files[i]?, f_pos.toNat + count.toNat ≤ 512
  | _ => True

instance (t : Opened) : (op : FsOp) → Decidable (op.Bounded t)
  | .read i _ => inferInstanceAs (Decidable (∀ f_pos ∈ t.files[i]?, _))
  | .write i _ _ => inferInstanceAs (Decidable (∀ f_pos ∈ t.files[i]?, _))
  | .open | .remount _ _ => isTrue trivial

theorem Stored.bounded {op : FsOp} (h : Stored t f) (hstep : f.step 512 op.toCall = .ok f') :
    op.Bounded t := by
  have hsome : ∀ (i : Nat) (f_pos : BitVec 32), t.files[i]? = some f_pos →
      f.positions[i]? = some f_pos.toNat := by
    intro i f_pos hfile
    rw [← h.files, List.getElem?_map, hfile]
    rfl
  rcases op with _ | ⟨i, count⟩ | ⟨i, buf, count⟩ | ⟨heap_ptr, commands⟩
  · trivial
  · intro f_pos hfile
    simp only [FsOp.toCall, File.step, hsome i f_pos hfile] at hstep
    split_ifs at hstep
    omega
  · intro f_pos hfile
    simp only [FsOp.toCall, File.step, hsome i f_pos hfile, length_bytesAt] at hstep
    split_ifs at hstep with hfit
    exact hfit
  · trivial

theorem stored_run {ops : List FsOp} (h : Stored t f) (hsane : f.Sane)
    (hops : ∀ op ∈ ops, op.Faithful) (hrun : run (File.step 512) f (ops.map FsOp.toCall) = .ok f') :
    ∃ t', run (guarded (fun t op => op.Bounded t) .null_object FsOp.step) t ops = .ok t' ∧
      Stored t' f' ∧ f'.Sane := by
  induction ops generalizing t f with
  | nil =>
    cases hrun
    exact ⟨t, rfl, h, hsane⟩
  | cons op ops ih =>
    rw [List.map_cons, run_cons, bind_ok] at hrun
    obtain ⟨f1, hstep, hrun⟩ := hrun
    obtain ⟨t1, hstep', h1⟩ := stored_step h hsane (hops op List.mem_cons_self) hstep
    obtain ⟨t', hrun', h'⟩ := ih h1 (sane_step hsane hstep)
      (fun o ho => hops o (List.mem_cons_of_mem _ ho)) hrun
    exact ⟨t', bind_ok.mpr ⟨t1, guarded_ok.mpr ⟨h.bounded hstep, hstep'⟩, hrun'⟩, h'⟩

theorem stored_start {k0 : Code.Relisfs} (hcommands : k0.ata.commands = [])
    (hmagic : read32 (k0.ata.blocks 0) 0 ≠ RELISFS_MAGIC)
    (hmount : relisfs_mount k0 = .ok (true, k)) : Stored ⟨k, [], []⟩ File.empty := by
  have hm := relisfs_mount_mounted hcommands hmount
  refine ⟨hm.magic,
    ⟨root_inode, ?_, hm.made hmagic, rfl, rfl, rfl⟩, by simp [File.empty], by simp [File.empty],
    hm.commands, rfl, rfl⟩
  rw [hm.inode, hm.made hmagic]

theorem Stored.read_again (h : Stored t f) {block_buf : Mem} {heap_ptr : BitVec 32}
    (hroom : HasRoom heap_ptr) :
    ∃ k' n' pos k'', relisfs_mount ⟨t.fs.ata, block_buf, heap_ptr, none⟩ = .ok (true, k') ∧
      k'.i_private = some n' ∧ n'.size.toNat = f.content.length ∧
      relisfs_read k' 0 512 = .ok (BitVec.ofNat 64 f.content.length, f.content, pos, k'') := by
  obtain ⟨n, -, hdisk, hused, hdirect, hsize⟩ := h.inode
  have hlen := h.length
  obtain ⟨k', hmount⟩ := relisfs_mount_room (k := ⟨t.fs.ata, block_buf, heap_ptr, none⟩)
    h.commands hroom
  have hm := relisfs_mount_mounted (k := ⟨t.fs.ata, block_buf, heap_ptr, none⟩) h.commands hmount
  have hblocks : k'.ata.blocks = t.fs.ata.blocks := hm.found h.magic
  have hinode : k'.i_private = some n := by rw [hm.inode, hblocks, hdisk]
  obtain ⟨ret, data, pos, k'', hread, -, hcase⟩ := relisfs_read_spec 0 512 hinode (by omega)
    (by decide)
  rcases hcase with ⟨-, -, -, hbad⟩ | ⟨hdata, hret, -⟩
  · rw [hused, hm.commands] at hbad
    rcases hbad with hbad | hbad <;> cases hbad
  · have hslice := h.slice 0 512
    rw [hdirect, hblocks, hsize] at hdata
    have hall : data = f.content := by
      refine hdata.trans (hslice.trans ?_)
      rw [List.drop_zero, List.take_of_length_le hlen]
    refine ⟨k', n, pos, k'', hmount, hinode, hsize, ?_⟩
    rw [hread, hall]
    congr 2
    apply BitVec.eq_of_toNat_eq
    rw [hret, hall, BitVec.toNat_ofNat]
    omega

/-- A formatted disk with any number of open files is one file of bytes, also after a new mount.
-/
theorem relisfs_is_byte_file {k0 : Code.Relisfs} {ops : List FsOp}
    (hcommands : k0.ata.commands = []) (hmagic : read32 (k0.ata.blocks 0) 0 ≠ RELISFS_MAGIC)
    (hmount : relisfs_mount k0 = .ok (true, k)) (hops : ∀ op ∈ ops, op.Faithful)
    (hrun : run (File.step 512) File.empty (ops.map FsOp.toCall) = .ok f) :
    ∃ t n, run FsOp.step ⟨k, [], []⟩ ops = .ok t ∧ t.trace = f.trace ∧
      t.files.map BitVec.toNat = f.positions ∧
      t.fs.i_private = some n ∧ n.size.toNat = f.content.length ∧
      (∀ p ∈ f.positions, p ≤ f.content.length) ∧ ReadsWritten f.trace ∧
      ∀ block_buf heap_ptr, HasRoom heap_ptr → ∃ k' n' pos k'',
        relisfs_mount ⟨t.fs.ata, block_buf, heap_ptr, none⟩ = .ok (true, k') ∧
        k'.i_private = some n' ∧ n'.size.toNat = f.content.length ∧
        relisfs_read k' 0 512 = .ok (BitVec.ofNat 64 f.content.length, f.content, pos, k'') := by
  obtain ⟨t, hrun', h, hsane⟩ := stored_run (stored_start hcommands hmagic hmount) sane_empty hops hrun
  obtain ⟨n, hinode, -, -, -, hsize⟩ := h.inode
  exact ⟨t, n, run_of_guarded hrun', h.trace, h.files, hinode, hsize, hsane.positions, hsane.reads,
    fun _ _ hroom => h.read_again hroom⟩

/-- Two files of an empty disk: what the first has written, the second reads, and the first reads
nothing. -/
theorem relisfs_is_byte_file_small :
    ∃ k t n, relisfs_mount ⟨⟨fun _ _ => 0, []⟩, fun _ => 0, 0, none⟩ = .ok (true, k) ∧
    run FsOp.step ⟨k, [], []⟩ [.open, .open, .write 0 (fun _ => 0x41) 3, .read 1 8, .read 0 8] =
      .ok t ∧
    t.trace = [.read 3 0 [], .read 0 3 [0x41, 0x41, 0x41], .write 0 3 [0x41, 0x41, 0x41]] ∧
    t.fs.i_private = some n ∧ n.size.toNat = 3 := by
  obtain ⟨k, hmount⟩ := relisfs_mount_room (k := ⟨⟨fun _ _ => 0, []⟩, fun _ => 0, 0, none⟩)
    rfl hasRoom_zero
  have hfile : run (File.step 512) File.empty (List.map FsOp.toCall
      [.open, .open, .write 0 (fun _ => 0x41) 3, .read 1 8, .read 0 8]) =
      .ok ⟨[0x41, 0x41, 0x41], [3, 3],
        [.read 3 0 [], .read 0 3 [0x41, 0x41, 0x41], .write 0 3 [0x41, 0x41, 0x41]]⟩ := rfl
  obtain ⟨t, n, hrun, htrace, -, hinode, hsize, -⟩ :=
    relisfs_is_byte_file rfl (by decide) hmount (by simp [FsOp.Faithful]) hfile
  exact ⟨k, t, n, hmount, hrun, htrace, hinode, hsize⟩

/-! ## The bounds of the copies -/

/-- The disk has no file system, or one whose root fits the block behind it. -/
def GoodDisk (blocks : Nat → Mem) : Prop :=
  read32 (blocks 0) 0 = RELISFS_MAGIC →
    (RelisfsInode.at (blocks 1) 76).size.toNat ≤ 512 ∧ (RelisfsInode.at (blocks 1) 76).direct_block = 2

structure Inside (k : Code.Relisfs) : Prop where
  disk : GoodDisk k.ata.blocks
  inode : ∃ n, k.i_private = some n ∧ n.size.toNat ≤ 512 ∧ n.direct_block = 2

/-- A read leaves the buffer just when its sum wraps, so that the count is not cut. -/
theorem read_overruns (hinode : k.i_private = some n) (hsize : n.size.toNat ≤ 512) :
    relisfs_read k f_pos count = .error .overrun ↔ n.used ≠ 0 ∧ f_pos < n.size ∧
      outcome k.ata.commands 0 = true ∧ 18446744073709551616 ≤ f_pos.toNat + count.toNat := by
  by_cases hsum : f_pos.toNat + count.toNat < 18446744073709551616
  · obtain ⟨ret, data, pos, k', hread, -⟩ := relisfs_read_spec f_pos count hinode hsize hsum
    rw [hread]
    constructor
    · intro h
      cases h
    · rintro ⟨-, -, -, hwrap⟩
      omega
  unfold relisfs_read
  simp only [hinode]
  by_cases hused : n.used = 0
  · simp [hused]
  rw [if_neg hused]
  by_cases hend : f_pos ≥ n.size
  · rw [if_pos hend]
    rw [ge_iff_le, BitVec.le_def] at hend
    simp only [reduceCtorEq, false_iff, BitVec.lt_def]
    omega
  have hcount := count.isLt
  have hpos := f_pos.isLt
  have hlt : f_pos < n.size := by
    rw [BitVec.lt_def]
    rw [ge_iff_le, BitVec.le_def] at hend
    omega
  -- The wrapped sum is below `f_pos`, so it passes the test.
  have hnot : ¬ f_pos.setWidth 64 + count > n.size.setWidth 64 := by
    rw [BitVec.lt_def] at hlt
    rw [gt_iff_lt, BitVec.lt_def, BitVec.toNat_add, BitVec.toNat_setWidth, BitVec.toNat_setWidth]
    omega
  rw [if_neg hend, if_neg hnot]
  cases hdone : outcome k.ata.commands 0 with
  | false =>
    rw [read_block_fails hdone]
    simp
  | true =>
    obtain ⟨block_buf, heq, -⟩ := read_block_done n.direct_block hdone
    rw [heq]
    simp only [Bool.not_true, Bool.false_eq_true, if_false, Code.Relisfs.copy_out]
    rw [if_neg (by omega)]
    exact ⟨fun _ => ⟨hused, hlt, trivial, by omega⟩, fun _ => rfl⟩

/-- A write leaves the buffer just when it ends behind the block. -/
theorem write_overruns (hinode : k.i_private = some n) (hdirect : n.direct_block = 2) :
    relisfs_write k f_pos buf count = .error .overrun ↔ n.used ≠ 0 ∧ outcome k.ata.commands 0 = true ∧
      512 < f_pos.toNat + count.toNat := by
  by_cases hsum : f_pos.toNat + count.toNat ≤ 512
  · obtain ⟨ret, pos, k', hwrite, -⟩ := relisfs_write_spec buf hinode hdirect hsum
    rw [hwrite]
    constructor
    · intro h
      cases h
    · rintro ⟨-, -, hover⟩
      omega
  unfold relisfs_write
  simp only [hinode]
  by_cases hused : n.used = 0
  · simp [hused]
  rw [if_neg hused]
  cases hdone : outcome k.ata.commands 0 with
  | false =>
    rw [read_block_fails hdone]
    simp
  | true =>
    obtain ⟨block_buf, heq, -⟩ := read_block_done n.direct_block hdone
    rw [heq]
    simp only [Bool.not_true, Bool.false_eq_true, if_false, Code.Relisfs.copy_in, if_neg hsum]
    exact ⟨fun _ => ⟨hused, trivial, by omega⟩, fun _ => rfl⟩

theorem Mounted.inside (h : Mounted k k') (hdisk : GoodDisk k.ata.blocks) (commands : List Bool) :
    Inside (withCommands k' commands) := by
  have hgood : (RelisfsInode.at (k'.ata.blocks 1) 76).size.toNat ≤ 512 ∧
      (RelisfsInode.at (k'.ata.blocks 1) 76).direct_block = 2 := by
    by_cases hmagic : read32 (k.ata.blocks 0) 0 = RELISFS_MAGIC
    · rw [h.found hmagic]
      exact hdisk hmagic
    · rw [h.made hmagic]
      decide
  exact ⟨fun _ => hgood, _, h.inode, hgood⟩

theorem KeepsFile.inside (h : KeepsFile k k') (hk : Inside k) : Inside k' :=
  ⟨h.blocks ▸ hk.disk, h.i_private ▸ hk.inode⟩

theorem Written.inside {n' : RelisfsInode} {len : Nat} (h : Written k k' n n' f_pos buf len)
    (hk : Inside k) (hinode : k.i_private = some n) (hfit : f_pos.toNat + len ≤ 512) : Inside k' := by
  obtain ⟨n0, hn0, hsize, hdirect⟩ := hk.inode
  cases hinode.symm.trans hn0
  have hgood : n'.size.toNat ≤ 512 ∧ n'.direct_block = 2 := by
    rw [h.size, h.direct_block]
    exact ⟨by omega, hdirect⟩
  refine ⟨fun hmagic => ?_, n', h.inode, hgood⟩
  rw [h.superblock] at hmagic
  rcases h.disk with hdisk | hdisk
  · rw [hdisk]
    exact hgood
  · rw [hdisk]
    exact hk.disk hmagic

structure InsideAll (t : Opened) : Prop where
  fs : Inside t.fs
  files : ∀ p ∈ t.files, p.toNat ≤ 512

theorem InsideAll.set (h : InsideAll t) {fs : Code.Relisfs} {i : Nat} {pos : BitVec 32}
    {trace : List (Event (BitVec 8))} (hfs : Inside fs) (hpos : pos.toNat ≤ 512) :
    InsideAll ⟨fs, t.files.set i pos, trace⟩ := by
  refine ⟨hfs, fun p hp => ?_⟩
  rcases List.mem_or_eq_of_mem_set hp with hp | rfl
  · exact h.files p hp
  · exact hpos

theorem inside_step {op : FsOp} (h : InsideAll t) (hbounded : op.Bounded t)
    (hstep : op.step t = .ok t') : InsideAll t' := by
  obtain ⟨n, hinode, hsize, hdirect⟩ := h.fs.inode
  rcases op with _ | ⟨i, count⟩ | ⟨i, buf, count⟩ | ⟨heap_ptr, commands⟩
  · cases hstep
    refine ⟨h.fs, fun p hp => ?_⟩
    rcases List.mem_append.mp hp with hp | hp
    · exact h.files p hp
    · rw [List.mem_singleton.mp hp]
      decide
  · unfold FsOp.step at hstep
    dsimp only at hstep
    split at hstep
    · cases hstep
    · rename_i f_pos hfile
      have hold := h.files f_pos (List.mem_of_getElem? hfile)
      obtain ⟨ret, data, pos, fs, hread, hkeep, hcase⟩ := relisfs_read_spec f_pos count hinode hsize
        (hbounded f_pos hfile)
      rw [hread] at hstep
      cases hstep
      apply h.set (hkeep.inside h.fs)
      rcases hcase with ⟨-, -, rfl, -⟩ | ⟨rfl, -, hpos⟩
      · exact hold
      · rw [hpos, List.length_map, List.length_range]
        omega
  · unfold FsOp.step at hstep
    dsimp only at hstep
    split at hstep
    · cases hstep
    · rename_i f_pos hfile
      have hold := h.files f_pos (List.mem_of_getElem? hfile)
      have hfit := hbounded f_pos hfile
      obtain ⟨ret, pos, fs, hwrite, hcase⟩ := relisfs_write_spec buf hinode hdirect hfit
      rw [hwrite] at hstep
      cases hstep
      rcases hcase with ⟨-, rfl, hkeep, -⟩ | ⟨-, hpos, n', hw⟩
      · exact h.set (hkeep.inside h.fs) hold
      · exact h.set (hw.inside h.fs hinode hfit) (hpos.trans_le hfit)
  · obtain ⟨⟨done, fs⟩, hmount, hstep⟩ := bind_ok.mp hstep
    cases hstep
    obtain rfl := relisfs_mount_done rfl hmount
    exact ⟨(relisfs_mount_mounted rfl hmount).inside h.fs.disk commands, by simp⟩

/-- In every run whose writes end inside of the block and whose reads do not wrap, all copies
stay inside of the 512 bytes. A call leaves them just when it breaks that rule and comes to its
copy. -/
theorem copies_stay_inside {k0 : Code.Relisfs} {commands : List Bool} {ops : List FsOp}
    (hcommands : k0.ata.commands = []) (hdisk : GoodDisk k0.ata.blocks)
    (hmount : relisfs_mount k0 = .ok (true, k))
    (hrun : run (guarded (fun t op => op.Bounded t) .null_object FsOp.step)
      ⟨withCommands k commands, [], []⟩ ops = .ok t) :
    ∃ n, t.fs.i_private = some n ∧ n.size.toNat ≤ 512 ∧ ∀ f_pos ∈ t.files, ∀ count : BitVec 64,
      (f_pos.toNat + count.toNat < 18446744073709551616 → ∃ ret data pos fs,
        relisfs_read t.fs f_pos count = .ok (ret, data, pos, fs) ∧
        (ret = -1 ∨ ret.toNat = data.length) ∧
        data.length ≤ n.size.toNat - f_pos.toNat ∧ f_pos.toNat + data.length ≤ 512) ∧
      (relisfs_read t.fs f_pos count = .error .overrun ↔ n.used ≠ 0 ∧ f_pos < n.size ∧
        outcome t.fs.ata.commands 0 = true ∧ 18446744073709551616 ≤ f_pos.toNat + count.toNat) ∧
      ∀ buf, relisfs_write t.fs f_pos buf count = .error .overrun ↔ n.used ≠ 0 ∧
        outcome t.fs.ata.commands 0 = true ∧ 512 < f_pos.toNat + count.toNat := by
  have hstart : InsideAll ⟨withCommands k commands, [], []⟩ :=
    ⟨(relisfs_mount_mounted hcommands hmount).inside hdisk commands, by simp⟩
  have hstep : ∀ op ∈ ops, ∀ t t' : Opened, InsideAll t →
      guarded (fun t (op : FsOp) => op.Bounded t) Halt.null_object FsOp.step t op = .ok t' →
        InsideAll t' := by
    intro op _ t t' h hstep
    obtain ⟨hbounded, hstep⟩ := guarded_ok.mp hstep
    exact inside_step h hbounded hstep
  have h := run_inv InsideAll hstep hstart hrun
  obtain ⟨n, hinode, hsize, hdirect⟩ := h.fs.inode
  refine ⟨n, hinode, hsize, fun f_pos hf count =>
    ⟨fun hsum => ?_, read_overruns hinode hsize, fun buf => write_overruns hinode hdirect⟩⟩
  have hold := h.files f_pos hf
  obtain ⟨ret, data, pos, fs, hread, -, hcase⟩ := relisfs_read_spec f_pos count hinode hsize hsum
  refine ⟨ret, data, pos, fs, hread, ?_⟩
  rcases hcase with ⟨rfl, rfl, -⟩ | ⟨rfl, hret, -⟩
  · exact ⟨.inl rfl, Nat.zero_le _, by simpa using hold⟩
  · rw [List.length_map, List.length_range] at hret ⊢
    exact ⟨.inr hret, by omega, by omega⟩

/-- Three bytes are written and read back. -/
theorem copies_stay_inside_small : ∃ k t n,
    relisfs_mount ⟨⟨fun _ _ => 0, []⟩, fun _ => 0, 0, none⟩ = .ok (true, k) ∧
    run (guarded (fun t op => op.Bounded t) .null_object FsOp.step) ⟨withCommands k [], [], []⟩
      [.open, .open, .write 0 (fun _ => 0x41) 3, .read 1 8] = .ok t ∧
    t.trace = [.read 0 3 [0x41, 0x41, 0x41], .write 0 3 [0x41, 0x41, 0x41]] ∧
    t.fs.i_private = some n ∧ n.size.toNat ≤ 512 := by
  obtain ⟨k, hmount⟩ := relisfs_mount_room (k := ⟨⟨fun _ _ => 0, []⟩, fun _ => 0, 0, none⟩)
    rfl hasRoom_zero
  have hfile : run (File.step 512) File.empty (List.map FsOp.toCall
      [.open, .open, .write 0 (fun _ => 0x41) 3, .read 1 8]) = .ok ⟨[0x41, 0x41, 0x41], [3, 3],
        [.read 0 3 [0x41, 0x41, 0x41], .write 0 3 [0x41, 0x41, 0x41]]⟩ := rfl
  have hcommands : withCommands k [] = k := by
    rw [withCommands, ← (relisfs_mount_mounted rfl hmount).commands]
  obtain ⟨t, hrun, hstored, -⟩ := stored_run (stored_start rfl (by decide) hmount) sane_empty
    (by simp [FsOp.Faithful]) hfile
  rw [← hcommands] at hrun
  obtain ⟨n, hinode, hsize, -⟩ := copies_stay_inside rfl (fun h => absurd h (by decide)) hmount hrun
  exact ⟨k, t, n, hmount, hrun, hstored.trace, hinode, hsize⟩

/-- The first write of 513 bytes leaves the buffer. -/
theorem write_behind_block :
    ∃ k, relisfs_mount ⟨⟨fun _ _ => 0, []⟩, fun _ => 0, 0, none⟩ = .ok (true, k) ∧
    run FsOp.step ⟨k, [], []⟩ [.open, .write 0 (fun _ => 0x41) 513] = .error .overrun := by
  obtain ⟨k, hmount⟩ := relisfs_mount_room (k := ⟨⟨fun _ _ => 0, []⟩, fun _ => 0, 0, none⟩)
    rfl hasRoom_zero
  have hm := relisfs_mount_mounted rfl hmount
  have hinode := hm.inode
  rw [hm.made (by decide)] at hinode
  have hover : relisfs_write k 0 (fun _ => 0x41) 513 = .error .overrun := by
    rw [write_overruns hinode rfl, hm.commands]
    decide
  have hopen : FsOp.step ⟨k, [], []⟩ .open = .ok ⟨k, [0], []⟩ := rfl
  have hwrite : FsOp.step ⟨k, [0], []⟩ (.write 0 (fun _ => 0x41) 513) = .error .overrun := by
    unfold FsOp.step
    dsimp only [List.getElem?_cons_zero]
    rw [hover]
    rfl
  refine ⟨k, hmount, ?_⟩
  rw [run_cons, hopen]
  change run FsOp.step ⟨k, [0], []⟩ [.write 0 (fun _ => 0x41) 513] = _
  rw [run_cons, hwrite]
  rfl

end Relis.Relisfs
