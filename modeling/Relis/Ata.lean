import Mathlib.Tactic
import Relis.Code.Ata

/-!
# What a return value 0 of the ATA driver says about the drive

`ata_wait_drq` tests DRQ before ERR and DF and never BSY, and nothing looks at the status that
the flush ends with.
-/

open Relis.Code.Pio

namespace Relis.Ata

def Busy (s : BitVec 8) : Prop := s &&& 0x80 ≠ 0
def Requests (s : BitVec 8) : Prop := s &&& 0x08 ≠ 0
def Fails (s : BitVec 8) : Prop := s &&& 0x01 ≠ 0 ∨ s &&& 0x20 ≠ 0

instance : DecidablePred Busy := fun _ => inferInstanceAs (Decidable (_ ≠ _))
instance : DecidablePred Requests := fun _ => inferInstanceAs (Decidable (_ ≠ _))
instance : DecidablePred Fails := fun _ => inferInstanceAs (Decidable (_ ∨ _))

/-- `i` polls after poll `k` is the last one of a loop that polls until `stop`, but `limit` times at
most. -/
structure Ends (stop : BitVec 8 → Prop) (d : Drive) (k limit i : Nat) : Prop where
  lt : i < limit
  before : ∀ j < i, ¬stop (d.status (k + j))
  last : stop (d.status (k + i)) ∨ i + 1 = limit

variable {stop : BitVec 8 → Prop} {d : Drive} {k limit i j : Nat}

theorem Ends.unique (hi : Ends stop d k limit i) (hj : Ends stop d k limit j) : i = j := by
  have hle : ∀ {i j}, Ends stop d k limit i → Ends stop d k limit j → ¬i < j := by
    intro i j hi hj hlt
    rcases hi.last with hstop | hlimit
    · exact hj.before i hlt hstop
    · have := hj.lt
      omega
  exact Nat.le_antisymm (Nat.not_lt.mp (hle hj hi)) (Nat.not_lt.mp (hle hi hj))

theorem ends_zero (hstop : stop (d.status k)) : Ends stop d k (limit + 1) 0 :=
  ⟨Nat.succ_pos _, by simp, .inl hstop⟩

theorem ends_one : Ends stop d k 1 0 := ⟨Nat.one_pos, by simp, .inr rfl⟩

theorem Ends.succ (h : Ends stop d (k + 1) limit i) (hnot : ¬stop (d.status k)) :
    Ends stop d k (limit + 1) (i + 1) := by
  have hadd : ∀ j, k + 1 + j = k + (j + 1) := by omega
  refine ⟨Nat.succ_lt_succ h.lt, fun j hj => ?_, ?_⟩
  · cases j with
    | zero => exact hnot
    | succ j =>
      rw [← hadd]
      exact h.before j (by omega)
  · rcases h.last with hstop | hlimit
    · left
      rwa [← hadd]
    · right
      omega

/-! ## The two loops -/

def polled (d : Drive) (k n : Nat) : List Access :=
  (List.range' k n).map fun i => .status (d.status i)

theorem polled_last (d : Drive) (k n : Nat) :
    polled d k (n + 1) = polled d k n ++ [Access.status (d.status (k + n))] := by
  rw [polled, List.range'_concat, List.map_append, Nat.one_mul]
  rfl

def after (d : Drive) (a : Ports) (n : Nat) : Ports :=
  { a with polls := a.polls + n, trace := a.trace ++ polled d a.polls n }

theorem after_after (d : Drive) (a : Ports) (n n' : Nat) :
    after d (after d a n) n' = after d a (n + n') := by
  simp only [after, polled, Nat.add_assoc, List.append_assoc, ← List.map_append, List.range'_append_1]

theorem ata_wait_bsy_loop_spec (d : Drive) (a : Ports) (timeout : Nat) :
    ∃ i, Ends (¬Busy ·) d a.polls (timeout + 1) i ∧
      ata_wait_bsy_loop d (timeout + 1) a = after d a (i + 1) := by
  induction timeout generalizing a with
  | zero =>
    refine ⟨0, ends_one, ?_⟩
    rw [ata_wait_bsy_loop]
    exact ite_self _
  | succ timeout ih =>
    rw [ata_wait_bsy_loop]
    by_cases hbusy : Busy (d.status a.polls)
    · obtain ⟨i, hi, heq⟩ := ih (after d a 1)
      refine ⟨i + 1, hi.succ (not_not_intro hbusy), ?_⟩
      rw [after_after, Nat.add_comm 1] at heq
      exact (if_pos hbusy).trans heq
    · exact ⟨0, ends_zero hbusy, if_neg hbusy⟩

def Reports (s : BitVec 8) : Prop := Requests s ∨ Fails s

theorem ata_wait_drq_loop_succ (d : Drive) (a : Ports) (timeout : Nat) :
    (Requests (d.status a.polls) → ata_wait_drq_loop d (timeout + 1) a = (true, after d a 1)) ∧
      (¬Requests (d.status a.polls) → Fails (d.status a.polls) →
        ata_wait_drq_loop d (timeout + 1) a = (false, after d a 1)) ∧
      (¬Reports (d.status a.polls) → ata_wait_drq_loop d (timeout + 1) a =
        ata_wait_drq_loop d timeout (after d a 1)) := by
  rw [ata_wait_drq_loop]
  refine ⟨fun hdrq => if_pos hdrq, fun hdrq hfails => (if_neg hdrq).trans ?_, fun hnot => ?_⟩
  · rcases hfails with herr | hdf
    · exact if_pos herr
    · change (if _ then _ else if _ then (false, after d a 1) else _) = _
      rw [if_pos hdf]
      exact ite_self _
  · obtain ⟨hdrq, hfails⟩ := not_or.mp hnot
    obtain ⟨herr, hdf⟩ := not_or.mp hfails
    exact (if_neg hdrq).trans ((if_neg herr).trans (if_neg hdf))

theorem ata_wait_drq_loop_spec (d : Drive) (a : Ports) (timeout : Nat) :
    ∃ i ready, Ends Reports d a.polls (timeout + 1) i ∧
      ata_wait_drq_loop d (timeout + 1) a = (ready, after d a (i + 1)) ∧
      (ready = true ↔ Requests (d.status (a.polls + i))) := by
  induction timeout generalizing a with
  | zero =>
    obtain ⟨hready, hfailed, hnone⟩ := ata_wait_drq_loop_succ d a 0
    by_cases hdrq : Requests (d.status a.polls)
    · exact ⟨0, true, ends_one, hready hdrq, by simpa using hdrq⟩
    · refine ⟨0, false, ends_one, ?_, by simpa using hdrq⟩
      by_cases hfails : Fails (d.status a.polls)
      · exact hfailed hdrq hfails
      · exact hnone (not_or.mpr ⟨hdrq, hfails⟩)
  | succ timeout ih =>
    obtain ⟨hready, hfailed, hnone⟩ := ata_wait_drq_loop_succ d a (timeout + 1)
    by_cases hdrq : Requests (d.status a.polls)
    · exact ⟨0, true, ends_zero (.inl hdrq), hready hdrq, by simpa using hdrq⟩
    by_cases hfails : Fails (d.status a.polls)
    · exact ⟨0, false, ends_zero (.inr hfails), hfailed hdrq hfails, by simpa using hdrq⟩
    · have hnot : ¬Reports (d.status a.polls) := not_or.mpr ⟨hdrq, hfails⟩
      obtain ⟨i, ready, hi, heq, hiff⟩ := ih (after d a 1)
      refine ⟨i + 1, ready, hi.succ hnot, ?_, ?_⟩
      · rw [hnone hnot, heq, after_after, Nat.add_comm 1]
      · rw [hiff]
        change Requests (d.status (a.polls + 1 + i)) ↔ _
        rw [Nat.add_assoc, Nat.add_comm 1]

/-! ## The two functions -/

structure Waits (d : Drive) (k i j : Nat) : Prop where
  settled : Ends (¬Busy ·) d k 1000000 i
  reported : Ends Reports d (k + (i + 1)) 1000000 j

theorem Waits.unique {i' j' : Nat} (h : Waits d k i j) (h' : Waits d k i' j') : i = i' ∧ j = j' := by
  obtain rfl := h.settled.unique h'.settled
  exact ⟨rfl, h.reported.unique h'.reported⟩

theorem waits_spec (d : Drive) (a : Ports) :
    ∃ i j ready, Waits d a.polls i j ∧
      ata_wait_drq d (ata_wait_bsy d a) = (ready, after d a (i + 1 + (j + 1))) ∧
      (ready = true ↔ Requests (d.status (a.polls + (i + 1) + j))) := by
  obtain ⟨i, hi, hbsy⟩ := ata_wait_bsy_loop_spec d a 999999
  obtain ⟨j, ready, hj, hdrq, hiff⟩ := ata_wait_drq_loop_spec d (after d a (i + 1)) 999999
  refine ⟨i, j, ready, ⟨hi, hj⟩, ?_, hiff⟩
  rw [ata_wait_drq, ata_wait_bsy, hbsy, hdrq, after_after]

theorem after_trace (d : Drive) (a : Ports) (n : Nat) :
    (after d a (n + 1)).trace = a.trace ++ polled d a.polls n ++
      [Access.status (d.status (a.polls + n))] := by
  rw [after, polled_last, List.append_assoc]

theorem ata_read_block_spec (d : Drive) (a : Ports) (lba : BitVec 32) (buf : List (BitVec 16)) :
    ∃ i j, Waits d a.polls i j ∧
      (¬Requests (d.status (a.polls + (i + 1) + j)) ∧ (ata_read_block d a lba buf).1 = -1 ∨
        Requests (d.status (a.polls + (i + 1) + j)) ∧ (ata_read_block d a lba buf).1 = 0 ∧
          ∃ before words, (ata_read_block d a lba buf).2.2.trace =
            before ++ [Access.status (d.status (a.polls + (i + 1) + j)),
              Access.insw ATA_DATA words]) := by
  obtain ⟨i, j, ready, hwaits, heq, hready⟩ := waits_spec d (ata_command a lba 0x20)
  refine ⟨i, j, hwaits, ?_⟩
  dsimp only [ata_read_block]
  rw [heq]
  cases ready with
  | false => exact .inl ⟨fun h => Bool.noConfusion (hready.mpr h), rfl⟩
  | true =>
    have htrace := after_trace d (ata_command a lba 0x20) (i + 1 + j)
    refine .inr ⟨hready.mp rfl, rfl, (ata_command a lba 0x20).trace ++ polled d a.polls (i + 1 + j),
      (List.range 256).map fun n => d.data (a.words + n), ?_⟩
    change (after d _ (i + 1 + (j + 1))).trace ++ [Access.insw ATA_DATA _] = _
    rw [← Nat.add_assoc (i + 1), htrace, ← Nat.add_assoc, List.append_assoc _ [_]]
    rfl

theorem ata_write_block_spec (d : Drive) (a : Ports) (lba : BitVec 32) (buf : List (BitVec 16)) :
    ∃ i j, Waits d a.polls i j ∧
      (¬Requests (d.status (a.polls + (i + 1) + j)) ∧ (ata_write_block d a lba buf).1 = -1 ∨
        Requests (d.status (a.polls + (i + 1) + j)) ∧ (ata_write_block d a lba buf).1 = 0 ∧
          ∃ l before between, Ends (¬Busy ·) d (a.polls + (i + 1 + (j + 1))) 1000000 l ∧
            (ata_write_block d a lba buf).2.trace =
              before ++ Access.outsw ATA_DATA buf :: Access.outb ATA_CMD 0xE7 :: between ++
                [Access.status (d.status (a.polls + (i + 1 + (j + 1)) + l))]) := by
  obtain ⟨i, j, ready, hwaits, heq, hready⟩ := waits_spec d (ata_command a lba 0x30)
  refine ⟨i, j, hwaits, ?_⟩
  dsimp only [ata_write_block]
  rw [heq]
  cases ready with
  | false => exact .inl ⟨fun h => Bool.noConfusion (hready.mpr h), rfl⟩
  | true =>
    let a1 := after d (ata_command a lba 0x30) (i + 1 + (j + 1))
    let a2 := (a1.access (.outsw ATA_DATA buf)).outb ATA_CMD 0xE7
    obtain ⟨l, hl, hflush⟩ := ata_wait_bsy_loop_spec d a2 999999
    refine .inr ⟨hready.mp rfl, rfl, l, a1.trace, polled d a2.polls l, hl, ?_⟩
    change (ata_wait_bsy_loop d (999999 + 1) a2).trace = _
    rw [hflush, after_trace]
    change a1.trace ++ [Access.outsw ATA_DATA buf] ++ [Access.outb ATA_CMD 0xE7] ++ _ ++ _ = _
    simp only [List.append_assoc, List.cons_append, List.nil_append]
    rfl

/-- Returns 0 only if the last status before the transfer is DRQ without BSY, ERR and DF. -/
def ReadReported (r : Int × List (BitVec 16) × Ports) : Prop :=
  r.1 = 0 → ∃ before s words, r.2.2.trace = before ++ [.status s, .insw ATA_DATA words] ∧
    ¬Busy s ∧ Requests s ∧ ¬Fails s

/-- Returns 0 only if the last status after the data and the flush is without BSY, ERR and DF. -/
def WriteReported (buf : List (BitVec 16)) (r : Int × Ports) : Prop :=
  r.1 = 0 → ∃ before between s,
    r.2.trace = before ++ .outsw ATA_DATA buf :: .outb ATA_CMD 0xE7 :: between ++ [.status s] ∧
      ¬Busy s ∧ ¬Fails s

/-- A status at which `ata_wait_drq` says ready is without BSY, ERR and DF. -/
def ReadSafe (d : Drive) (k : Nat) : Prop :=
  ∀ i j, Waits d k i j → Requests (d.status (k + (i + 1) + j)) →
    ¬Busy (d.status (k + (i + 1) + j)) ∧ ¬Fails (d.status (k + (i + 1) + j))

/-- When `ata_wait_drq` says ready, the wait for the flush ends without BSY, ERR and DF. -/
def WriteSafe (d : Drive) (k : Nat) : Prop :=
  ∀ i j l, Waits d k i j → Requests (d.status (k + (i + 1) + j)) →
    Ends (¬Busy ·) d (k + (i + 1 + (j + 1))) 1000000 l →
    ¬Busy (d.status (k + (i + 1 + (j + 1)) + l)) ∧ ¬Fails (d.status (k + (i + 1 + (j + 1)) + l))

theorem readReported_iff (d : Drive) (a : Ports) (lba : BitVec 32) (buf : List (BitVec 16)) :
    ReadReported (ata_read_block d a lba buf) ↔ ReadSafe d a.polls := by
  obtain ⟨i, j, hwaits, ⟨hdrq, hret⟩ | ⟨hdrq, hret, before, words, htrace⟩⟩ :=
    ata_read_block_spec d a lba buf
  · refine iff_of_true (fun h => absurd (hret.symm.trans h) (by decide)) fun i' j' hwaits' hdrq' => ?_
    obtain ⟨rfl, rfl⟩ := hwaits.unique hwaits'
    exact absurd hdrq' hdrq
  · constructor
    · intro hreported i' j' hwaits' _
      obtain ⟨rfl, rfl⟩ := hwaits.unique hwaits'
      obtain ⟨before', s, words', htrace', hbusy, -, hfails⟩ := hreported hret
      have hlast := List.append_inj_right' (htrace.symm.trans htrace') rfl
      rw [Access.status.inj (List.cons.inj hlast).1]
      exact ⟨hbusy, hfails⟩
    · intro hsafe _
      obtain ⟨hbusy, hfails⟩ := hsafe i j hwaits hdrq
      exact ⟨before, _, words, htrace, hbusy, hdrq, hfails⟩

theorem writeReported_iff (d : Drive) (a : Ports) (lba : BitVec 32) (buf : List (BitVec 16)) :
    WriteReported buf (ata_write_block d a lba buf) ↔ WriteSafe d a.polls := by
  obtain ⟨i, j, hwaits, ⟨hdrq, hret⟩ | ⟨hdrq, hret, l, before, between, hl, htrace⟩⟩ :=
    ata_write_block_spec d a lba buf
  · refine iff_of_true (fun h => absurd (hret.symm.trans h) (by decide))
      fun i' j' l' hwaits' hdrq' _ => ?_
    obtain ⟨rfl, rfl⟩ := hwaits.unique hwaits'
    exact absurd hdrq' hdrq
  · constructor
    · intro hreported i' j' l' hwaits' _ hl'
      obtain ⟨rfl, rfl⟩ := hwaits.unique hwaits'
      obtain rfl := hl.unique hl'
      obtain ⟨before', between', s, htrace', hbusy, hfails⟩ := hreported hret
      have hlast := List.append_inj_right' (htrace.symm.trans htrace') rfl
      rw [Access.status.inj (List.cons.inj hlast).1]
      exact ⟨hbusy, hfails⟩
    · intro hsafe _
      exact ⟨before, between, _, htrace, hsafe i j l hwaits hdrq hl⟩

/-- For every drive, and from any poll on. -/
theorem reported_iff_safe (d : Drive) (a : Ports) (lba : BitVec 32) (buf : List (BitVec 16)) :
    WriteReported buf (ata_write_block d a lba buf) ∧ ReadReported (ata_read_block d a lba buf) ↔
      WriteSafe d a.polls ∧ ReadSafe d a.polls :=
  and_congr (writeReported_iff d a lba buf) (readReported_iff d a lba buf)

def failing : Drive := ⟨fun n => [0x00, 0x08, 0x01].getD n 0, fun _ => 0⟩

def faulty : Drive := ⟨fun n => [0x00, 0x09].getD n 0, fun _ => 0⟩

theorem failing_write_returns_zero :
    ¬WriteReported (List.replicate 256 0)
      (ata_write_block failing ⟨0, 0, []⟩ 0 (List.replicate 256 0)) ∧
      ¬ReadReported (ata_read_block faulty ⟨0, 0, []⟩ 0 []) := by
  rw [writeReported_iff, readReported_iff]
  constructor
  · intro hsafe
    have hwaits : Waits failing 0 0 0 := ⟨ends_zero (by decide), ends_zero (.inl (by decide))⟩
    have hclean := hsafe 0 0 0 hwaits (by decide) (ends_zero (by decide))
    exact hclean.2 (by decide)
  · intro hsafe
    have hwaits : Waits faulty 0 0 0 := ⟨ends_zero (by decide), ends_zero (.inl (by decide))⟩
    have hclean := hsafe 0 0 hwaits (by decide)
    exact hclean.2 (by decide)

end Relis.Ata
