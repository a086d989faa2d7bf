import Relis.Ata
import Relis.Code.Relisfs

/-!
# A disk behind the ports

Whatever times a drive takes and whatever commands it fails, the driver makes it the store
of blocks that `relisfs.c` works on.
-/

open Relis.Bytes Relis.Code.Pio

namespace Relis.Ata

/-! ## The disk -/

inductive Phase
  | idle
  | data_in
  | data_out
  | failed
  deriving DecidableEq, Repr

/-- The registers, the sectors, and for how many polls BSY is still set. -/
structure Disk where
  sectors : Nat → List (BitVec 16)
  drv : BitVec 8
  count : BitVec 8
  lo : BitVec 8
  mid : BitVec 8
  hi : BitVec 8
  busy : Nat
  phase : Phase

def Disk.lba (k : Disk) : Nat :=
  (k.drv &&& 0x0F).toNat * 2 ^ 24 + k.hi.toNat * 2 ^ 16 + k.mid.toNat * 2 ^ 8 + k.lo.toNat

def Disk.Selected (k : Disk) : Prop := k.drv &&& 0xF0 = 0xE0 ∧ k.count = 1

def Phase.Shows (s : BitVec 8) : Phase → Prop
  | .idle => ¬Busy s
  | .data_in | .data_out => ¬Busy s ∧ Requests s
  | .failed => ¬Busy s ∧ ¬Requests s ∧ Fails s

def Disk.register (k : Disk) (port : BitVec 16) (v : BitVec 8) : Disk :=
  if port = ATA_DRV then { k with drv := v }
  else if port = ATA_COUNT then { k with count := v }
  else if port = ATA_LBAlo then { k with lo := v }
  else if port = ATA_LBAmid then { k with mid := v }
  else if port = ATA_LBAhi then { k with hi := v }
  else k

/-- A command takes less than a million polls, and a transfer may fail. A drive that is busy takes a
flush, but may do anything at another command. -/
def Disk.Command (k : Disk) (v : BitVec 8) (k' : Disk) : Prop :=
  (v = 0xE7 ∨ k.busy = 0) → ∃ n < 1000000, ∃ phase, k' = { k with busy := n, phase := phase } ∧
    (v = 0x20 → phase = .data_in ∨ phase = .failed) ∧ (v = 0x30 → phase = .data_out ∨ phase = .failed) ∧
    (v = 0xE7 → phase = .idle)

/-- What the drive does with an access. It may do anything at a transfer that it is not ready for.
The last word of a sector is the one that stores it. -/
def Disk.Step (k : Disk) : Access → Disk → Prop
  | .outb port v, k' => if port = ATA_CMD then k.Command v k' else k' = k.register port v
  | .status s, k' => k' = { k with busy := k.busy - 1 } ∧
    (0 < k.busy ∧ Busy s ∨ k.busy = 0 ∧ k.phase.Shows s)
  | .insw _ words, k' => k.busy = 0 ∧ k.phase = .data_in ∧ k.Selected →
    words = k.sectors k.lba ∧ k' = { k with phase := .idle }
  | .outsw _ words, k' => k.busy = 0 ∧ k.phase = .data_out ∧ k.Selected →
    ∃ n, k' = { k with sectors := Function.update k.sectors k.lba words, busy := n, phase := .idle }
  | .printk .., k' => k' = k

inductive Disk.Takes : Disk → List Access → Disk → Prop
  | nil (k : Disk) : Takes k [] k
  | cons {k k1 k' : Disk} {x : Access} {t : List Access} (hstep : k.Step x k1) (ht : Takes k1 t k') :
    Takes k (x :: t) k'

variable {k k1 k' : Disk} {t t' : List Access} {d : Drive} {x : Access} {a : Ports} {lba : BitVec 32}

theorem takes_cons : k.Takes (x :: t) k' ↔ ∃ k1, k.Step x k1 ∧ k1.Takes t k' := by
  constructor
  · intro h
    cases h with
    | cons hstep ht => exact ⟨_, hstep, ht⟩
  · rintro ⟨k1, hstep, ht⟩
    exact .cons hstep ht

theorem takes_nil : k.Takes [] k' ↔ k' = k := by
  constructor
  · intro h
    cases h
    rfl
  · rintro rfl
    exact .nil _

theorem takes_append : k.Takes (t ++ t') k' ↔ ∃ k1, k.Takes t k1 ∧ k1.Takes t' k' := by
  induction t generalizing k with
  | nil => simp [takes_nil]
  | cons x t ih => simp only [List.cons_append, takes_cons, ih, ← exists_and_right, and_assoc]; grind

/-! ## Polls -/

theorem takes_polled {m n : Nat} (h : k.Takes (polled d m n) k') : k' = { k with busy := k.busy - n } ∧
    ∀ j < n, (j < k.busy ∧ Busy (d.status (m + j))) ∨ (k.busy ≤ j ∧ k.phase.Shows (d.status (m + j))) := by
  induction n generalizing k' with
  | zero =>
    obtain rfl := takes_nil.mp h
    exact ⟨rfl, fun j hj => absurd hj (Nat.not_lt_zero j)⟩
  | succ n ih =>
    rw [polled_last] at h
    obtain ⟨k1, h1, h⟩ := takes_append.mp h
    obtain ⟨rfl, hpolls⟩ := ih h1
    obtain ⟨k2, ⟨rfl, hlast⟩, h⟩ := takes_cons.mp h
    obtain rfl := takes_nil.mp h
    refine ⟨by rw [Nat.sub_sub], fun j hj => ?_⟩
    rcases Nat.lt_succ_iff_lt_or_eq.mp hj with hj | rfl
    · exact hpolls j hj
    · dsimp only at hlast
      exact hlast.imp (And.imp_left (by omega)) (And.imp_left (by omega))

theorem wait_bsy_takes {i : Nat} (hbusy : k.busy < 1000000) (hi : Ends (¬Busy ·) d a.polls 1000000 i)
    (h : k.Takes (polled d a.polls (i + 1)) k') :
    k' = { k with busy := 0 } ∧ k.phase.Shows (d.status (a.polls + i)) := by
  obtain ⟨rfl, hpolls⟩ := takes_polled h
  have hle : k.busy ≤ i := by
    rcases hpolls i (Nat.lt_succ_self i) with ⟨hlt, hs⟩ | ⟨hle, -⟩
    · have hlimit := hi.last.resolve_left (not_not_intro hs)
      omega
    · exact hle
  refine ⟨by rw [Nat.sub_eq_zero_of_le (by omega)], ?_⟩
  rcases hpolls i (Nat.lt_succ_self i) with ⟨hlt, -⟩ | ⟨-, hs⟩
  · omega
  · exact hs

theorem wait_drq_takes {m j : Nat} (hbusy : k.busy = 0) (hphase : k.phase ≠ .idle)
    (h : k.Takes (polled d m (j + 1)) k') :
    k' = k ∧ (Requests (d.status (m + j)) ↔ k.phase ≠ .failed) := by
  obtain ⟨rfl, hpolls⟩ := takes_polled h
  have hshows : ∀ l < j + 1, k.phase.Shows (d.status (m + l)) := fun l hl => by
    rcases hpolls l hl with ⟨hlt, -⟩ | ⟨-, hs⟩
    · omega
    · exact hs
  refine ⟨by rw [hbusy, Nat.zero_sub, ← hbusy], ?_⟩
  have hlast := hshows j (Nat.lt_succ_self j)
  cases hp : k.phase with
  | idle => exact absurd hp hphase
  | data_in | data_out =>
    rw [hp] at hlast
    exact iff_of_true hlast.2 (by decide)
  | failed =>
    rw [hp] at hlast
    exact iff_of_false hlast.2.1 (by decide)

/-! ## Commands -/

def Disk.select (k : Disk) (lba : BitVec 32) : Disk :=
  { k with
    drv := (0xE0 : BitVec 8) ||| ((lba >>> 24) &&& 0x0F#32).setWidth 8
    count := 1
    lo := (lba &&& 0xFF#32).setWidth 8
    mid := ((lba >>> 8) &&& 0xFF#32).setWidth 8
    hi := ((lba >>> 16) &&& 0xFF#32).setWidth 8 }

theorem toNat_byte (lba : BitVec 32) (n : Nat) :
    (((lba >>> n) &&& 0xFF#32).setWidth 8).toNat = lba.toNat / 2 ^ n % 256 := by
  rw [BitVec.toNat_setWidth, BitVec.toNat_and, BitVec.toNat_ushiftRight, show (0xFF#32).toNat =
    2 ^ 8 - 1 from rfl, Nat.and_two_pow_sub_one_eq_mod, Nat.shiftRight_eq_div_pow, Nat.mod_mod]

theorem select_lba (k : Disk) (lba : BitVec 32) : (k.select lba).lba = Code.ata_lba lba := by
  have hdrv : (((0xE0 : BitVec 8) ||| ((lba >>> 24) &&& 0x0F#32).setWidth 8) &&& 0x0F).toNat =
      lba.toNat / 2 ^ 24 % 16 := by
    rw [BitVec.toNat_and, BitVec.toNat_or, BitVec.toNat_setWidth, BitVec.toNat_and,
      BitVec.toNat_ushiftRight, Nat.shiftRight_eq_div_pow,
      show (0x0F#32).toNat = 2 ^ 4 - 1 from rfl, show (0x0F : BitVec 8).toNat = 2 ^ 4 - 1 from rfl,
      Nat.and_two_pow_sub_one_eq_mod, Nat.and_two_pow_sub_one_eq_mod, Nat.or_mod_two_pow]
    rw [show (0xE0 : BitVec 8).toNat % 2 ^ 4 = 0 from rfl, Nat.zero_or]
    omega
  have hlo := toNat_byte lba 0
  rw [BitVec.ushiftRight_zero] at hlo
  unfold Disk.lba Disk.select Code.ata_lba
  dsimp only
  rw [hdrv, hlo, toNat_byte, toNat_byte, BitVec.toNat_and,
    show (0x0FFFFFFF : BitVec 32).toNat = 2 ^ 28 - 1 from rfl, Nat.and_two_pow_sub_one_eq_mod]
  omega

theorem select_selected (k : Disk) (lba : BitVec 32) : (k.select lba).Selected := by
  refine ⟨?_, rfl⟩
  unfold Disk.select
  dsimp only
  ext i hi
  interval_cases i <;> simp

def commandAccesses (lba : BitVec 32) (command : BitVec 8) : List Access :=
  [.outb ATA_DRV (0xE0 ||| ((lba >>> 24) &&& 0x0F#32).setWidth 8), .outb ATA_COUNT 1,
    .outb ATA_LBAlo ((lba &&& 0xFF#32).setWidth 8),
    .outb ATA_LBAmid (((lba >>> 8) &&& 0xFF#32).setWidth 8),
    .outb ATA_LBAhi (((lba >>> 16) &&& 0xFF#32).setWidth 8), .outb ATA_CMD command]

theorem ata_command_trace (a : Ports) (lba : BitVec 32) (command : BitVec 8) :
    (ata_command a lba command).trace = a.trace ++ commandAccesses lba command := by
  simp only [ata_command, Ports.outb, Ports.access, commandAccesses, List.append_assoc,
    List.cons_append, List.nil_append]

theorem takes_command {command : BitVec 8} :
    k.Takes (commandAccesses lba command) k' ↔ (k.select lba).Command command k' := by
  unfold commandAccesses
  simp only [takes_cons, takes_nil]
  constructor
  · rintro ⟨k1, h1, k2, h2, k3, h3, k4, h4, k5, h5, k6, h6, rfl⟩
    cases h1
    cases h2
    cases h3
    cases h4
    cases h5
    exact h6
  · exact fun h => ⟨_, rfl, _, rfl, _, rfl, _, rfl, _, rfl, _, h, rfl⟩

theorem polled_add (d : Drive) (m n n' : Nat) :
    polled d m (n + n') = polled d m n ++ polled d (m + n) n' := by
  simp only [polled, ← List.map_append, List.range'_append_1]

theorem begins_takes {i j : Nat} {command : BitVec 8} (hready : k.busy = 0) (hcommand : command = 0x20 ∨ command = 0x30)
    (hwaits : Waits d a.polls i j)
    (h : k.Takes (commandAccesses lba command ++ polled d a.polls (i + 1 + (j + 1))) k') :
    ∃ phase, k' = { k.select lba with busy := 0, phase := phase } ∧
      (phase = .failed ∨ phase = if command = 0x20 then .data_in else .data_out) ∧
      (Requests (d.status (a.polls + (i + 1) + j)) ↔ phase ≠ .failed) := by
  rw [polled_add] at h
  obtain ⟨k1, h1, h⟩ := takes_append.mp h
  obtain ⟨k2, h2, h3⟩ := takes_append.mp h
  obtain ⟨n, hn, phase, rfl, hin, hout, -⟩ := takes_command.mp h1 (.inr hready)
  obtain ⟨rfl, -⟩ := wait_bsy_takes (k := { k.select lba with busy := n, phase := phase }) hn
    hwaits.settled h2
  have hcases : phase = .failed ∨ phase = if command = 0x20 then .data_in else .data_out := by
    rcases hcommand with rfl | rfl
    · exact (hin rfl).symm
    · exact (hout rfl).symm
  have hidle : phase ≠ .idle := by
    rintro rfl
    rcases hcases with hp | hp
    · cases hp
    · split_ifs at hp
  obtain ⟨rfl, hiff⟩ :=
    wait_drq_takes (k := { k.select lba with busy := 0, phase := phase }) rfl hidle h3
  exact ⟨phase, rfl, hcases, hiff⟩

/-! ## Calls -/

def Disk.Serves (k : Disk) (a a' : Ports) (k' : Disk) : Prop :=
  ∃ t, a'.trace = a.trace ++ t ∧ k.Takes t k'

theorem begin_serves {command : BitVec 8} (d : Drive) (a : Ports) (lba : BitVec 32)
    (hready : k.busy = 0) (hcommand : command = 0x20 ∨ command = 0x30) :
    ∃ (ready : Bool) (a1 : Ports),
      ata_wait_drq d (ata_wait_bsy d (ata_command a lba command)) = (ready, a1) ∧
      ∀ (a' : Ports) (t : List Access) (k' : Disk), a'.trace = a1.trace ++ t → k.Serves a a' k' →
        ∃ phase,
          (phase = if !ready then .failed else if command = 0x20 then .data_in else .data_out) ∧
          Disk.Takes { k.select lba with busy := 0, phase := phase } t k' := by
  obtain ⟨i, j, ready, hwaits, heq, hdrq⟩ := waits_spec d (ata_command a lba command)
  refine ⟨ready, _, heq, fun a' t k' ha' hserves => ?_⟩
  obtain ⟨t', ht', h⟩ := hserves
  have htrace : t' = commandAccesses lba command ++ polled d a.polls (i + 1 + (j + 1)) ++ t := by
    refine (List.append_right_inj a.trace).mp (ht'.symm.trans (ha'.trans ?_))
    unfold after
    rw [ata_command_trace, List.append_assoc, List.append_assoc, List.append_assoc]
    rfl
  rw [htrace] at h
  obtain ⟨k1, h1, h2⟩ := takes_append.mp h
  obtain ⟨phase, rfl, hphase, hiff⟩ := begins_takes hready hcommand hwaits h1
  refine ⟨phase, ?_, h2⟩
  cases ready with
  | false => exact not_not.mp fun hne => Bool.noConfusion (hdrq.mpr (hiff.mpr hne))
  | true => exact hphase.resolve_left (hiff.mp (hdrq.mp rfl))

theorem ata_read_block_serves {buf : List (BitVec 16)} (hready : k.busy = 0)
    (h : k.Serves a (ata_read_block d a lba buf).2.2 k') : k'.busy = 0 ∧ k'.sectors = k.sectors ∧
      ((ata_read_block d a lba buf).1 = 0 ∧ (ata_read_block d a lba buf).2.1 =
        k.sectors (Code.ata_lba lba) ∨
        (ata_read_block d a lba buf).1 = -1 ∧ (ata_read_block d a lba buf).2.1 = buf) := by
  obtain ⟨ready, a1, heq, hbegin⟩ := begin_serves d a lba hready (.inl rfl)
  dsimp only [ata_read_block] at h ⊢
  rw [heq] at h ⊢
  cases ready with
  | false =>
    obtain ⟨phase, -, h⟩ := hbegin _ _ _ rfl h
    obtain ⟨k1, rfl, h⟩ := takes_cons.mp h
    obtain rfl := takes_nil.mp h
    exact ⟨rfl, rfl, .inr ⟨rfl, rfl⟩⟩
  | true =>
    obtain ⟨phase, rfl, h⟩ := hbegin _ _ _ rfl h
    obtain ⟨k1, hstep, h⟩ := takes_cons.mp h
    obtain ⟨hwords, rfl⟩ := hstep ⟨rfl, rfl, select_selected k lba⟩
    obtain rfl := takes_nil.mp h
    exact ⟨rfl, rfl, .inl ⟨rfl, hwords.trans (congrArg k.sectors (select_lba k lba))⟩⟩

theorem ata_write_block_serves {buf : List (BitVec 16)} (hready : k.busy = 0)
    (h : k.Serves a (ata_write_block d a lba buf).2 k') : k'.busy = 0 ∧
      ((ata_write_block d a lba buf).1 = 0 ∧ k'.sectors =
        Function.update k.sectors (Code.ata_lba lba) buf ∨
        (ata_write_block d a lba buf).1 = -1 ∧ k'.sectors = k.sectors) := by
  obtain ⟨ready, a1, heq, hbegin⟩ := begin_serves d a lba hready (.inr rfl)
  dsimp only [ata_write_block] at h ⊢
  rw [heq] at h ⊢
  cases ready with
  | false =>
    obtain ⟨phase, -, h⟩ := hbegin _ _ _ rfl h
    obtain ⟨k1, rfl, h⟩ := takes_cons.mp h
    obtain rfl := takes_nil.mp h
    exact ⟨rfl, .inr ⟨rfl, rfl⟩⟩
  | true =>
    obtain ⟨l, hl, hflush⟩ := ata_wait_bsy_loop_spec d
      ((a1.access (.outsw ATA_DATA buf)).outb ATA_CMD 0xE7) 999999
    have htrace : (ata_wait_bsy d ((a1.access (.outsw ATA_DATA buf)).outb ATA_CMD 0xE7)).trace =
        a1.trace ++ .outsw ATA_DATA buf :: .outb ATA_CMD 0xE7 :: polled d a1.polls (l + 1) := by
      rw [ata_wait_bsy, hflush]
      simp only [after, Ports.outb, Ports.access, List.append_assoc, List.cons_append, List.nil_append]
    obtain ⟨phase, rfl, h⟩ := hbegin _ _ _ htrace h
    obtain ⟨k1, hstep, h⟩ := takes_cons.mp h
    obtain ⟨n, rfl⟩ := hstep ⟨rfl, rfl, select_selected k lba⟩
    obtain ⟨k2, hcommand, h⟩ := takes_cons.mp h
    -- The driver sends the flush without a wait after the data.
    obtain ⟨m, hm, phase, rfl, -⟩ := hcommand (.inl rfl)
    obtain ⟨rfl, -⟩ := wait_bsy_takes hm hl h
    exact ⟨rfl, .inl ⟨rfl, congrArg (Function.update k.sectors · buf) (select_lba k lba)⟩⟩

/-! ## Runs -/

def wordsOf (buf : Mem) : List (BitVec 16) := (List.range 256).map fun i => read16 buf (2 * i)

theorem wordsOf_congr {m m' : Mem} (h : ∀ x < 512, m x = m' x) : wordsOf m = wordsOf m' := by
  refine List.map_congr_left fun i hi => ?_
  have hi := List.mem_range.mp hi
  rw [read16, read16, h _ (by omega), h _ (by omega)]

theorem wordsOf_kmemcpy (dest src : Mem) :
    wordsOf (Code.kmemcpy_into dest src 0 0 512) = wordsOf src := by
  apply wordsOf_congr
  intro x hx
  rw [Code.kmemcpy_into_apply, if_pos (by omega), Nat.sub_zero, Nat.zero_add]

inductive BlockCall
  | read (lba : BitVec 32) (buf : Mem)
  | write (lba : BitVec 32) (buf : Mem)

/-- Whether the call returns 0, and what is in the buffer after it: through the ports. -/
def BlockCall.pio (d : Drive) : BlockCall → Ports → (Bool × List (BitVec 16)) × Ports
  | .read lba buf, a =>
    let r := ata_read_block d a lba (wordsOf buf)
    ((r.1 = 0, r.2.1), r.2.2)
  | .write lba buf, a =>
    let r := ata_write_block d a lba (wordsOf buf)
    ((r.1 = 0, wordsOf buf), r.2)

def BlockCall.store : BlockCall → Code.Ata → (Bool × List (BitVec 16)) × Code.Ata
  | .read lba buf, s =>
    let r := Code.ata_read_block s lba buf
    ((r.1, wordsOf r.2.1), r.2.2)
  | .write lba buf, s =>
    let r := Code.ata_write_block s lba buf
    ((r.1, wordsOf buf), r.2)

def Disk.Holds (k : Disk) (blocks : Nat → Mem) : Prop := ∀ n, k.sectors n = wordsOf (blocks n)

theorem pio_refines {blocks : Nat → Mem} {call : BlockCall} (hready : k.busy = 0)
    (hholds : k.Holds blocks) (h : k.Serves a (call.pio d a).2 k') :
    k'.busy = 0 ∧ ∃ drq blocks', k'.Holds blocks' ∧
      ∀ commands, call.store ⟨blocks, drq :: commands⟩ =
        ((call.pio d a).1, ⟨blocks', commands⟩) := by
  cases call with
  | read lba buf =>
    obtain ⟨hready', hsectors, hcases⟩ := ata_read_block_serves hready h
    have hholds' : k'.Holds blocks := fun n => (congrFun hsectors n).trans (hholds n)
    refine ⟨hready', ?_⟩
    dsimp only [BlockCall.pio, BlockCall.store]
    rcases hcases with ⟨hret, hbuf⟩ | ⟨hret, hbuf⟩
    · refine ⟨true, blocks, hholds', fun commands => ?_⟩
      have hread : Code.ata_read_block ⟨blocks, true :: commands⟩ lba buf =
          (true, Code.kmemcpy_into buf (blocks (Code.ata_lba lba)) 0 0 512, ⟨blocks, commands⟩) := rfl
      rw [hret, hbuf, hholds, hread, wordsOf_kmemcpy]
      rfl
    · refine ⟨false, blocks, hholds', fun commands => ?_⟩
      rw [hret, hbuf]
      rfl
  | write lba buf =>
    obtain ⟨hready', hcases⟩ := ata_write_block_serves hready h
    refine ⟨hready', ?_⟩
    dsimp only [BlockCall.pio, BlockCall.store]
    rcases hcases with ⟨hret, hsectors⟩ | ⟨hret, hsectors⟩
    · refine ⟨true, Function.update blocks (Code.ata_lba lba)
        (Code.kmemcpy_into (blocks (Code.ata_lba lba)) buf 0 0 512), fun n => ?_,
        fun commands => ?_⟩
      · rw [hsectors, Function.update_apply, Function.update_apply]
        split_ifs
        · exact (wordsOf_kmemcpy _ buf).symm
        · exact hholds n
      · rw [hret]
        rfl
    · refine ⟨false, blocks, fun n => (congrFun hsectors n).trans (hholds n), fun commands => ?_⟩
      rw [hret]
      rfl

def Disk.ServesAll (d : Drive) : List BlockCall → Ports → Disk → Disk → Prop
  | [], _, k, k' => k' = k
  | call :: calls, a, k, k' => ∃ k1, k.Serves a (call.pio d a).2 k1 ∧
    ServesAll d calls (call.pio d a).2 k1 k'

/-- A run through the ports is a run of the store, for some commands that the drive carries out and
others that it does not. -/
theorem ports_refine_blocks {blocks : Nat → Mem} {calls : List BlockCall} (hready : k.busy = 0)
    (hholds : k.Holds blocks) (h : Disk.ServesAll d calls a k k') : k'.busy = 0 ∧
      ∃ (commands : List Bool) (blocks' : Nat → Mem), commands.length = calls.length ∧
        k'.Holds blocks' ∧
        Run.answers BlockCall.store calls ⟨blocks, commands⟩ =
          ((Run.answers (BlockCall.pio d) calls a).1, ⟨blocks', []⟩) := by
  induction calls generalizing k a blocks with
  | nil =>
    obtain rfl : k' = k := h
    exact ⟨hready, [], blocks, rfl, hholds, rfl⟩
  | cons call calls ih =>
    obtain ⟨k1, h1, h2⟩ := h
    obtain ⟨hready1, drq, blocks1, hholds1, hcall⟩ := pio_refines hready hholds h1
    obtain ⟨hready', commands, blocks', hlength, hholds', hcalls⟩ := ih hready1 hholds1 h2
    refine ⟨hready', drq :: commands, blocks', congrArg (· + 1) hlength, hholds', ?_⟩
    rw [Run.answers, Run.answers, hcall commands]
    dsimp only
    rw [hcalls]

def slow : Drive := ⟨fun n => [0x80, 0x08, 0x08, 0x80, 0x00, 0x08, 0x08].getD n 0, fun _ => 0x5A5A⟩

def zeros : Disk := ⟨fun _ => List.replicate 256 0, 0, 0, 0, 0, 0, 0, .idle⟩

def writeRead : List BlockCall := [.write 5 fun _ => 0x5A, .read 5 fun _ => 0]

def stored : Disk :=
  ⟨Function.update zeros.sectors 5 (List.replicate 256 0x5A5A), 0xE0, 1, 5, 0, 0, 0, .idle⟩

theorem zeros_takes :
    zeros.Takes (commandAccesses 5 0x30 ++ [.status 0x80, .status 0x08, .status 0x08,
    .outsw ATA_DATA (List.replicate 256 0x5A5A), .outb ATA_CMD 0xE7, .status 0x80, .status 0x00])
      stored := by
  have hwrite : zeros.Takes (commandAccesses 5 0x30) ⟨zeros.sectors, 0xE0, 1, 5, 0, 0, 1, .data_out⟩ :=
    takes_command.mpr fun _ => ⟨1, by decide, .data_out, rfl, by decide, by decide, by decide⟩
  refine takes_append.mpr ⟨_, hwrite, ?_⟩
  refine .cons (And.intro rfl (.inl ⟨by decide, by decide⟩)) ?_
  refine .cons (And.intro rfl (.inr ⟨rfl, by decide, by decide⟩)) ?_
  refine .cons (And.intro rfl (.inr ⟨rfl, by decide, by decide⟩)) ?_
  refine .cons (fun _ => ⟨7, rfl⟩) ?_
  refine .cons (fun _ => ⟨1, by decide, .idle, rfl, by decide, by decide, by decide⟩) ?_
  refine .cons (And.intro rfl (.inl ⟨by decide, by decide⟩)) ?_
  exact .cons (And.intro rfl (.inr ⟨rfl, (by decide : ¬Busy 0x00)⟩)) (.nil _)

def reading : Disk := ⟨stored.sectors, 0xE0, 1, 5, 0, 0, 0, .data_in⟩

theorem stored_takes : stored.Takes (commandAccesses 5 0x20 ++
    [.status 0x08, .status 0x08, .insw ATA_DATA (List.replicate 256 0x5A5A)]) stored := by
  have hread : stored.Takes (commandAccesses 5 0x20) reading :=
    takes_command.mpr fun _ => ⟨0, by decide, .data_in, rfl, by decide, by decide, by decide⟩
  have hshows : reading.Step (.status 0x08) reading := And.intro rfl (.inr ⟨rfl, by decide, by decide⟩)
  have hsector : reading.sectors 5 = List.replicate 256 0x5A5A := by
    simp only [reading, stored, Function.update_self]
  have hlba : 5 = reading.lba := by decide
  refine takes_append.mpr ⟨_, hread, .cons hshows (.cons hshows ?_)⟩
  exact .cons (fun _ => And.intro (hsector.symm.trans (congrArg reading.sectors hlba)) rfl) (.nil _)

theorem zeros_serves : Disk.ServesAll slow writeRead ⟨0, 0, []⟩ zeros stored := by
  refine ⟨stored, ⟨_, ?_, zeros_takes⟩, stored, ⟨_, ?_, stored_takes⟩, rfl⟩
  · decide +kernel
  · decide +kernel

theorem write_read_refines : stored.busy = 0 ∧ ∃ (commands : List Bool) (blocks' : Nat → Mem),
    commands.length = writeRead.length ∧ stored.Holds blocks' ∧
      Run.answers BlockCall.store writeRead ⟨fun _ _ => 0, commands⟩ =
        ((Run.answers (BlockCall.pio slow) writeRead ⟨0, 0, []⟩).1, ⟨blocks', []⟩) := by
  have hholds : zeros.Holds fun _ _ => 0 := fun n => by
    change List.replicate 256 0 = wordsOf fun _ => 0
    decide +kernel
  exact ports_refine_blocks rfl hholds zeros_serves

end Relis.Ata
