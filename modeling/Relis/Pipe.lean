import Mathlib.Tactic
import Relis.Code.Ipc
import Relis.Slab

/-!
# Pipes

What goes in comes out in its order, under every interleaving of the processes.
Nothing moves back to the start of the buffer, so a pipe ends after 4096 bytes.
-/

open Relis.Code Relis.Run Relis.Slab

namespace Relis.Pipe

variable {p p' q : PipeData} {c : PipeCall} {k : PipePlace}

def taken (buf : Nat → BitVec 8) (n : Nat) : List (BitVec 8) := (List.range n).map buf

/-- `buffer[read_pos..write_pos)` -/
def unread (p : PipeData) : List (BitVec 8) :=
  (List.range' p.read_pos.toNat (p.write_pos.toNat - p.read_pos.toNat)).map p.buffer

def bytesOut : PipeResult → List (BitVec 8)
  | .got buf n => taken buf n.toNat
  | _ => []

def bytesIn : PipeCall → PipeResult → List (BitVec 8)
  | .write buf _, .wrote n => taken buf n.toNat
  | _, _ => []

abbrev History := List (Nat × PipeCall × PipeResult)

def delivered (h : History) : List (BitVec 8) := h.flatMap fun e => bytesOut e.2.2

def accepted (h : History) : List (BitVec 8) := h.flatMap fun e => bytesIn e.2.1 e.2.2

@[simp] theorem delivered_snoc (h : History) (i : Nat) (c : PipeCall) (r : PipeResult) :
    delivered (h ++ [(i, c, r)]) = delivered h ++ bytesOut r := by
  simp [delivered]

@[simp] theorem accepted_snoc (h : History) (i : Nat) (c : PipeCall) (r : PipeResult) :
    accepted (h ++ [(i, c, r)]) = accepted h ++ bytesIn c r := by
  simp [accepted]

/-- The result is one of the call. A read stores only the bytes that it returns. -/
def Answers : PipeCall → PipeResult → Prop
  | .read buf count, .got buf' n => n.toNat ≤ count.toNat ∧ ∀ x ≥ n.toNat, buf' x = buf x
  | .read _ _, .nothing => True
  | .write _ count, .wrote n => n.toNat ≤ count.toNat
  | _, _ => False

structure Bounded (p : PipeData) : Prop where
  read_le : p.read_pos.toNat ≤ p.write_pos.toNat
  write_le : p.write_pos.toNat ≤ 4096

@[simp] theorem length_taken (buf : Nat → BitVec 8) (n : Nat) : (taken buf n).length = n := by
  simp [taken]

@[simp] theorem length_unread (p : PipeData) :
    (unread p).length = p.write_pos.toNat - p.read_pos.toNat := by
  simp [unread]

/-! ## The functions as a whole -/

theorem read_to_copy_toNat (h : Bounded p) (count : BitVec 64) :
    (read_to_copy p count).toNat = min (p.write_pos.toNat - p.read_pos.toNat) count.toNat := by
  have hr := h.read_le
  have hw := h.write_le
  unfold read_to_copy
  have hdiff : ((p.write_pos - p.read_pos).setWidth 64).toNat =
      p.write_pos.toNat - p.read_pos.toNat := by
    simp only [BitVec.toNat_setWidth, BitVec.toNat_sub]
    omega
  simp only [gt_iff_lt, BitVec.lt_def, hdiff]
  split
  · omega
  · rw [hdiff]
    omega

theorem write_to_copy_toNat (h : Bounded p) (count : BitVec 64) :
    (write_to_copy p count).toNat = min count.toNat (4096 - p.write_pos.toNat) := by
  have hw := h.write_le
  unfold write_to_copy
  have hdiff : ((4096#32 - p.write_pos).setWidth 64).toNat = 4096 - p.write_pos.toNat := by
    simp only [BitVec.toNat_setWidth, BitVec.toNat_sub, BitVec.toNat_ofNat]
    omega
  simp only [BitVec.lt_def, hdiff]
  split
  · omega
  · rw [hdiff]
    omega

theorem advance_toNat {pos : BitVec 32} {n : BitVec 64} (h : pos.toNat + n.toNat ≤ 4096) :
    (advance pos n).toNat = pos.toNat + n.toNat := by
  unfold advance
  simp only [BitVec.toNat_setWidth, BitVec.toNat_add]
  omega

theorem unread_copy (h : Bounded p) (buf : Nat → BitVec 8) (i : Nat) :
    unread { p with buffer := kmemcpy_into p.buffer buf p.write_pos.toNat 0 i } = unread p := by
  have hr := h.read_le
  unfold unread
  apply List.map_congr_left
  intro x hx
  rw [List.mem_range'_1] at hx
  dsimp only at hx ⊢
  rw [kmemcpy_into_apply, if_neg (by omega)]

theorem pipe_write_spec (h : Bounded p) (buf : Nat → BitVec 8) (count : BitVec 64) :
    ∃ n p', pipe_write p buf count = (n, p') ∧ n.toNat = min count.toNat (4096 - p.write_pos.toNat) ∧
      Bounded p' ∧ p'.read_pos = p.read_pos ∧ unread p' = unread p ++ taken buf n.toNat := by
  have hr := h.read_le
  have hn := write_to_copy_toNat h count
  have hpos : (advance p.write_pos (write_to_copy p count)).toNat =
      p.write_pos.toNat + (write_to_copy p count).toNat := advance_toNat (by have := h.write_le; omega)
  refine ⟨_, _, rfl, hn, ⟨?_, ?_⟩, rfl, ?_⟩
  · simp only [hpos]
    omega
  · simp only [hpos]
    have := h.write_le
    omega
  · have hlen : p.write_pos.toNat + (write_to_copy p count).toNat - p.read_pos.toNat =
        (p.write_pos.toNat - p.read_pos.toNat) + (write_to_copy p count).toNat := by omega
    rw [← unread_copy h buf (write_to_copy p count).toNat]
    generalize write_to_copy p count = n at *
    unfold unread taken
    simp only [hpos, hlen]
    rw [← List.range'_append_1, List.map_append]
    congr 1
    rw [show p.read_pos.toNat + (p.write_pos.toNat - p.read_pos.toNat) = p.write_pos.toNat by omega,
      List.range'_eq_map_range, List.map_map]
    apply List.map_congr_left
    intro x hx
    rw [List.mem_range] at hx
    rw [Function.comp_apply, kmemcpy_into_apply, if_pos (by omega)]
    congr 1
    omega

theorem pipe_read_turn_none {buf : Nat → BitVec 8} {count : BitVec 64} :
    pipe_read_turn p buf count = none ↔ p.read_pos = p.write_pos := by
  unfold pipe_read_turn
  by_cases h : p.read_pos = p.write_pos <;> simp [h]

theorem pipe_read_turn_spec (h : Bounded p) (buf : Nat → BitVec 8) (count : BitVec 64)
    (hne : p.read_pos ≠ p.write_pos) :
    ∃ n buf' p', pipe_read_turn p buf count = some (n, buf', p') ∧
      n.toNat = min (p.write_pos.toNat - p.read_pos.toNat) count.toNat ∧
      Bounded p' ∧ p'.read_pos.toNat = p.read_pos.toNat + n.toNat ∧
      unread p = taken buf' n.toNat ++ unread p' := by
  have hr := h.read_le
  have hw := h.write_le
  have hn := read_to_copy_toNat h count
  have hpos : (advance p.read_pos (read_to_copy p count)).toNat =
      p.read_pos.toNat + (read_to_copy p count).toNat := advance_toNat (by omega)
  refine ⟨_, _, _, if_pos hne, hn, ⟨?_, hw⟩, hpos, ?_⟩
  · simp only [hpos]
    omega
  · have hlen : p.write_pos.toNat - p.read_pos.toNat = (read_to_copy p count).toNat +
        (p.write_pos.toNat - (p.read_pos.toNat + (read_to_copy p count).toNat)) := by omega
    unfold unread taken
    simp only [hpos]
    rw [hlen, ← List.range'_append_1, List.map_append]
    congr 1
    rw [List.range'_eq_map_range, List.map_map]
    apply List.map_congr_left
    intro x hx
    rw [List.mem_range] at hx
    rw [Function.comp_apply, kmemcpy_into_apply, if_pos (by omega), Nat.sub_zero]

/-! ## The steps of a section -/

/-- Where the section of a call can be that has found the pipe as `p`, and what it
has made of the pipe. -/
inductive Reached (p : PipeData) : PipeCall → PipePlace → PipeData → Prop
  | read_test (buf : Nat → BitVec 8) (count : BitVec 64) :
    Reached p (.read buf count) (.read_test buf count) p
  | read_size (buf : Nat → BitVec 8) (count : BitVec 64) (hne : p.read_pos ≠ p.write_pos) :
    Reached p (.read buf count) (.read_size buf count) p
  | read_copy (buf : Nat → BitVec 8) (count : BitVec 64) (i : Nat) (hne : p.read_pos ≠ p.write_pos)
    (hi : i ≤ (read_to_copy p count).toNat) :
    Reached p (.read buf count)
      (.read_copy (kmemcpy_into buf p.buffer 0 p.read_pos.toNat i) p.read_pos.toNat
        (read_to_copy p count) i) p
  | write_size (buf : Nat → BitVec 8) (count : BitVec 64) :
    Reached p (.write buf count) (.write_size buf count) p
  | write_copy (buf : Nat → BitVec 8) (count : BitVec 64) (i : Nat)
    (hi : i ≤ (write_to_copy p count).toNat) :
    Reached p (.write buf count) (.write_copy buf p.write_pos.toNat (write_to_copy p count) i)
      { p with buffer := kmemcpy_into p.buffer buf p.write_pos.toNat 0 i }

inductive Ended (p : PipeData) : PipeCall → PipeResult → PipeData → Prop
  | got {buf buf' : Nat → BitVec 8} {count n : BitVec 64} {p' : PipeData}
    (h : pipe_read_turn p buf count = some (n, buf', p')) : Ended p (.read buf count) (.got buf' n) p'
  | nothing {buf : Nat → BitVec 8} {count : BitVec 64} (h : pipe_read_turn p buf count = none) :
    Ended p (.read buf count) .nothing p
  | wrote (buf : Nat → BitVec 8) (count : BitVec 64) :
    Ended p (.write buf count) (.wrote (pipe_write p buf count).1) (pipe_write p buf count).2

theorem reached_step (h : Reached p c k q) :
    (∃ k' q', k.step q = (.inl k', q') ∧ Reached p c k' q') ∨
    ∃ r q', k.step q = (.inr r, q') ∧ Ended p c r q' := by
  cases h with
  | read_test buf count =>
    by_cases hne : p.read_pos ≠ p.write_pos
    · exact .inl ⟨_, _, if_pos hne, .read_size buf count hne⟩
    · refine .inr ⟨_, _, if_neg hne, .nothing ?_⟩
      exact pipe_read_turn_none.mpr (not_not.mp hne)
  | read_size buf count hne => exact .inl ⟨_, _, rfl, .read_copy buf count 0 hne (Nat.zero_le _)⟩
  | read_copy buf count i hne hi =>
    by_cases hlt : i < (read_to_copy p count).toNat
    · have hnext := Reached.read_copy buf count (i + 1) hne hlt
      rw [kmemcpy_into_succ, Nat.zero_add] at hnext
      exact .inl ⟨_, _, by simp only [PipePlace.step, if_pos hlt], hnext⟩
    · have hlast : i = (read_to_copy p count).toNat := Nat.le_antisymm hi (Nat.not_lt.mp hlt)
      subst hlast
      exact .inr ⟨_, _, by simp only [PipePlace.step, if_neg hlt], .got (if_pos hne)⟩
  | write_size buf count => exact .inl ⟨_, _, rfl, .write_copy buf count 0 (Nat.zero_le _)⟩
  | write_copy buf count i hi =>
    by_cases hlt : i < (write_to_copy p count).toNat
    · have hnext := Reached.write_copy buf count (i + 1) hlt
      rw [kmemcpy_into_succ, Nat.zero_add] at hnext
      exact .inl ⟨_, _, by simp only [PipePlace.step, if_pos hlt], hnext⟩
    · have hlast : i = (write_to_copy p count).toNat := Nat.le_antisymm hi (Nat.not_lt.mp hlt)
      refine .inr ⟨_, _, ?_, .wrote buf count⟩
      simp only [PipePlace.step, pipe_write, hlast, Nat.lt_irrefl, if_false]

theorem reached_enter (p : PipeData) (c : PipeCall) : Reached p c c.enter p := by
  cases c with
  | read buf count => exact .read_test buf count
  | write buf count => exact .write_size buf count

theorem steps_reached (h : Lock.Steps pipe_section c.enter p k q) : Reached p c k q := by
  induction h with
  | refl => exact reached_enter _ c
  | tail _ hstep ih =>
    rcases reached_step ih with ⟨k', q', hk', h'⟩ | ⟨r, q', hr, -⟩
    · cases hk'.symm.trans hstep
      exact h'
    · cases hr.symm.trans hstep

theorem reached_steps (h : Reached p c k q) : Lock.Steps pipe_section c.enter p k q := by
  cases h with
  | read_test buf count => exact .refl _ _
  | read_size buf count hne => exact (Lock.Steps.refl _ _).tail (if_pos hne)
  | read_copy buf count i hne hi =>
    induction i with
    | zero => exact (Lock.Steps.tail (.refl _ _) (if_pos hne)).tail rfl
    | succ i ih =>
      refine (ih (Nat.le_of_succ_le hi)).tail ?_
      simp only [pipe_section, PipePlace.step, if_pos (Nat.lt_of_succ_le hi),
        kmemcpy_into_succ, Nat.zero_add]
  | write_size buf count => exact .refl _ _
  | write_copy buf count i hi =>
    induction i with
    | zero => exact (Lock.Steps.refl _ _).tail rfl
    | succ i ih =>
      refine (ih (Nat.le_of_succ_le hi)).tail ?_
      simp only [pipe_section, PipePlace.step, if_pos (Nat.lt_of_succ_le hi),
        kmemcpy_into_succ, Nat.zero_add]

theorem ends_iff {r : PipeResult} : Lock.Ends pipe_section c p r p' ↔ Ended p c r p' := by
  constructor
  · rintro ⟨k, q, hsteps, hlast⟩
    rcases reached_step (steps_reached hsteps) with ⟨k', q', hk', -⟩ | ⟨r', q', hr, hend⟩
    · cases hk'.symm.trans hlast
    · cases hr.symm.trans hlast
      exact hend
  · intro hend
    cases hend with
    | @got buf _ count _ _ h =>
      unfold pipe_read_turn at h
      split at h
      next hne =>
        cases h
        refine ⟨_, _, reached_steps (.read_copy buf count _ hne (Nat.le_refl _)), ?_⟩
        simp only [pipe_section, PipePlace.step, Nat.lt_irrefl, if_false]
      next => cases h
    | nothing h =>
      refine ⟨_, _, .refl _ _, if_neg ?_⟩
      exact not_not.mpr (pipe_read_turn_none.mp h)
    | wrote buf count =>
      refine ⟨_, _, reached_steps (.write_copy buf count _ (Nat.le_refl _)), ?_⟩
      simp only [pipe_section, PipePlace.step, pipe_write, Nat.lt_irrefl, if_false]

/-! ## The stream -/

structure Stream (h : History) (p : PipeData) : Prop extends Bounded p where
  read_pos : (delivered h).length = p.read_pos.toNat
  bytes : delivered h ++ unread p = accepted h
  answers : ∀ e ∈ h, Answers e.2.1 e.2.2

theorem stream_zero : Stream [] RelisPipe.zero.toPipeData :=
  ⟨⟨Nat.le_refl _, Nat.zero_le _⟩, rfl, rfl, fun _ he => by cases he⟩

theorem write_to_copy_le (p : PipeData) (count : BitVec 64) :
    (write_to_copy p count).toNat ≤ count.toNat := by
  unfold write_to_copy
  dsimp only
  split
  next => exact Nat.le_refl _
  next hle => exact BitVec.le_def.mp (BitVec.not_lt.mp hle)

theorem pipe_read_turn_answers {buf buf' : Nat → BitVec 8} {count n : BitVec 64}
    (h : pipe_read_turn p buf count = some (n, buf', p')) :
    Answers (.read buf count) (.got buf' n) := by
  unfold pipe_read_turn at h
  split at h
  next =>
    cases h
    refine ⟨?_, ?_⟩
    · unfold read_to_copy
      dsimp only
      split
      next => exact Nat.le_refl _
      next hle => exact BitVec.le_def.mp (BitVec.not_lt.mp hle)
    · intro x hx
      rw [kmemcpy_into_apply, if_neg (by omega)]
  next => cases h

theorem Ended.answers {r : PipeResult} (h : Ended p c r p') : Answers c r := by
  cases h with
  | got hturn => exact pipe_read_turn_answers hturn
  | nothing => trivial
  | wrote buf count =>
    simp only [Answers, pipe_write]
    exact write_to_copy_le p count

theorem Stream.ended {h : History} {r : PipeResult}
    (hs : Stream h p) (i : Nat) (hend : Ended p c r p') : Stream (h ++ [(i, c, r)]) p' := by
  have hbytes := hs.bytes
  have hanswers : ∀ e ∈ h ++ [(i, c, r)], Answers e.2.1 e.2.2 := by
    intro e he
    rcases List.mem_append.mp he with he | he
    · exact hs.answers e he
    · rw [List.mem_singleton.mp he]
      exact hend.answers
  cases hend with
  | @got buf buf' count n p' hturn =>
    have hne : p.read_pos ≠ p.write_pos := by
      intro heq
      rw [pipe_read_turn_none.mpr heq] at hturn
      cases hturn
    obtain ⟨n', buf'', p'', hturn', -, hb, hpos, hunread⟩ :=
      pipe_read_turn_spec hs.toBounded buf count hne
    cases hturn.symm.trans hturn'
    refine ⟨hb, ?_, ?_, hanswers⟩
    · simp [bytesOut, hpos, ← hs.read_pos]
    · rw [hunread] at hbytes
      simpa [bytesOut, bytesIn] using hbytes
  | nothing =>
    refine ⟨hs.toBounded, ?_, ?_, hanswers⟩
    · simpa [bytesOut] using hs.read_pos
    · simpa [bytesOut, bytesIn] using hbytes
  | wrote buf count =>
    obtain ⟨n, p', hwrite, -, hb, hread, hunread⟩ := pipe_write_spec hs.toBounded buf count
    rw [hwrite] at hanswers ⊢
    refine ⟨hb, ?_, ?_, hanswers⟩
    · simpa [bytesOut, hread] using hs.read_pos
    · simp [bytesOut, bytesIn, hunread, ← hbytes]

theorem Stream.reached {h : History} (hs : Stream h p) (hk : Reached p c k q) :
    Stream h q ∧ ∀ i, k.touches = some i → i < 4096 := by
  have hr := hs.read_le
  have hw := hs.write_le
  cases hk with
  | read_test buf count => exact ⟨hs, fun i hi => nomatch hi⟩
  | read_size buf count => exact ⟨hs, fun i hi => nomatch hi⟩
  | write_size buf count => exact ⟨hs, fun i hi => nomatch hi⟩
  | read_copy buf count i hne hi =>
    have hn := read_to_copy_toNat hs.toBounded count
    refine ⟨hs, fun x hx => ?_⟩
    simp only [PipePlace.touches, Option.ite_none_right_eq_some, Option.some.injEq] at hx
    omega
  | write_copy buf count i hi =>
    have hn := write_to_copy_toNat hs.toBounded count
    refine ⟨⟨⟨hr, hw⟩, hs.read_pos, ?_, hs.answers⟩, fun x hx => ?_⟩
    · rw [unread_copy hs.toBounded]
      exact hs.bytes
    · simp only [PipePlace.touches, Option.ite_none_right_eq_some, Option.some.injEq] at hx
      omega

theorem serial_stream {h : History}
    (hs : Lock.Serial pipe_section RelisPipe.zero.toPipeData h p) : Stream h p :=
  hs.inv Stream stream_zero fun _ _ _ _ _ i hstream hend => hstream.ended i (ends_iff.mp hend)

theorem run_stream (events : List PipeEvent) :
    Stream (pipe_run RelisPipe.zero events).finished (pipe_run RelisPipe.zero events).obj ∧
      ∀ i c k, (pipe_run RelisPipe.zero events).pc i = .inside c k → ∀ x, k.touches = some x →
        x < 4096 := by
  have howned : Lock.Owned pipe_section _ (pipe_run RelisPipe.zero events) :=
    Lock.owned_run events (Lock.owned_start _)
  have hinside : ∀ i c k, (pipe_run RelisPipe.zero events).pc i = .inside c k →
      Stream (pipe_run RelisPipe.zero events).finished (pipe_run RelisPipe.zero events).obj ∧
        ∀ x, k.touches = some x → x < 4096 := by
    intro i c k hk
    obtain ⟨-, -, hheld⟩ := howned.of_holds (i := i) (by simp [hk, Lock.Pc.holds])
    rw [hk] at hheld
    obtain ⟨p, hser, hsteps⟩ := hheld
    exact (serial_stream hser).reached (steps_reached hsteps)
  refine ⟨?_, fun i c k hk => (hinside i c k hk).2⟩
  rcases howned with ⟨-, -, hser⟩ | ⟨i, hlock, honly, hheld⟩
  · exact serial_stream hser
  · rcases hk : (pipe_run RelisPipe.zero events).pc i with _ | _ | _ | ⟨c, k⟩ | _ | _
    all_goals rw [hk] at hheld
    case inside => exact (hinside i c k hk).1
    case unlock => exact serial_stream hheld
    all_goals cases hheld

/-! ## `sys_pipe` -/

def Opens (k : Kernel) (fd : Nat) (fop : FileOperations) (p : Nat) : Prop :=
  ∃ f inode, (k.task k.current_task).files fd = some f ∧ (k.file f).f_inode = some inode ∧
    k.inode inode = ⟨some p, some fop⟩

structure NewEnd (k k' : Kernel) (p f : Nat) (fop : FileOperations) : Prop where
  inode : ∃ i < k'.heap_ptr.toNat, (k'.file f).f_inode = some i ∧ k'.inode i = ⟨some p, some fop⟩
  inside : f < k'.heap_ptr.toNat
  old : ∀ x < k.heap_ptr.toNat, k'.file x = k.file x ∧ k'.inode x = k.inode x
  pipe : k'.pipe = k.pipe
  task : k'.task = k.task

theorem pipe_end_spec {k k' : Kernel} {p f : Nat} {fop : FileOperations}
    (h : pipe_end k p fop = .ok (f, k')) : NewEnd k k' p f fop := by
  unfold pipe_end at h
  obtain ⟨⟨f', k1⟩, h1, h⟩ := bind_ok.mp h
  obtain ⟨⟨inode, k2⟩, h2, h⟩ := bind_ok.mp h
  cases h
  obtain ⟨rfl, heap_ptr1, rfl, hfile⟩ := kmalloc_object_grows (by decide) h1
  obtain ⟨rfl, heap_ptr2, rfl, hinode⟩ := kmalloc_object_grows (by decide) h2
  refine ⟨⟨_, hinode, by simp, by simp⟩, hfile.trans hinode, fun x hx => ⟨?_, ?_⟩, rfl, rfl⟩
  · exact Function.update_of_ne hx.ne _ _
  · exact Function.update_of_ne (hx.trans hfile).ne _ _

theorem pipe_fds_second {read_end write_end : Nat} {files files' : Nat → Option Nat} {r w : Nat}
    {rfd : Option Nat} {is : List Nat}
    (h : pipe_fds read_end write_end files (some r) is = (files', rfd, some w)) :
    rfd = some r ∧ files w = none ∧ files' = Function.update files w (some write_end) := by
  induction is with
  | nil => cases h
  | cons i is ih =>
    unfold pipe_fds at h
    split at h
    next hi =>
      cases h
      exact ⟨rfl, hi, rfl⟩
    next => exact ih h

theorem pipe_fds_spec {read_end write_end : Nat} {files files' : Nat → Option Nat} {r w : Nat}
    {is : List Nat} (h : pipe_fds read_end write_end files none is = (files', some r, some w)) :
    files r = none ∧ files w = none ∧ r ≠ w ∧ files' r = some read_end ∧
      files' w = some write_end := by
  induction is with
  | nil => cases h
  | cons i is ih =>
    unfold pipe_fds at h
    split at h
    next hi =>
      obtain ⟨hr, hw, rfl⟩ := pipe_fds_second h
      cases hr
      have hne : r ≠ w := by
        rintro rfl
        rw [Function.update_self] at hw
        cases hw
      rw [Function.update_of_ne hne.symm] at hw
      exact ⟨hi, hw, hne, by rw [Function.update_of_ne hne, Function.update_self],
        Function.update_self ..⟩
    next => exact ih h

theorem sys_pipe_spec {k k' : Kernel} {ret : Int} {rfd wfd : Nat}
    (h : sys_pipe k = .ok (ret, some (rfd, wfd), k')) :
    ∃ p, Opens k' rfd .pipe_read_fops p ∧ Opens k' wfd .pipe_write_fops p ∧ rfd ≠ wfd ∧
      k'.pipe p = RelisPipe.zero := by
  unfold sys_pipe at h
  obtain ⟨⟨p, k1⟩, -, h⟩ := bind_ok.mp h
  obtain ⟨⟨read_end, k2⟩, h2, h⟩ := bind_ok.mp h
  obtain ⟨⟨write_end, k3⟩, h3, h⟩ := bind_ok.mp h
  have hread := pipe_end_spec h2
  have hwrite := pipe_end_spec h3
  simp only at h
  split at h
  next r w hr hw =>
    cases h
    obtain ⟨-, -, hne, hrfd, hwfd⟩ := pipe_fds_spec (Prod.ext rfl (Prod.ext hr hw))
    have hold := hwrite.old
    obtain ⟨i, hi, hfile, hinode⟩ := hread.inode
    obtain ⟨j, -, hfile', hinode'⟩ := hwrite.inode
    refine ⟨p, ⟨read_end, i, ?_, ?_, ?_⟩, ⟨write_end, j, ?_, hfile', hinode'⟩, hne, ?_⟩
    · simpa [Kernel.update_task] using hrfd
    · change (k3.file read_end).f_inode = some i
      rw [(hold _ hread.inside).1, hfile]
    · change k3.inode i = _
      rw [(hold _ hi).2, hinode]
    · simpa [Kernel.update_task] using hwfd
    · change k3.pipe p = _
      rw [hwrite.pipe, hread.pipe]
      exact Function.update_self ..
  next => cases h

/-! ## The two ends of a pipe -/

/-- Under any interleaving of reads and writes no byte is lost, doubled or moved, and each
process gets the results of its own calls. -/
theorem pipe_is_stream {k k' : Kernel} {ret : Int} {rfd wfd : Nat}
    (hpipe : sys_pipe k = .ok (ret, some (rfd, wfd), k')) :
    ∃ p, Opens k' rfd .pipe_read_fops p ∧ Opens k' wfd .pipe_write_fops p ∧ k'.pipe p = RelisPipe.zero ∧
      ∀ events : List PipeEvent,
        let s := pipe_run (k'.pipe p) events
        s.obj.read_pos.toNat ≤ s.obj.write_pos.toNat ∧ s.obj.write_pos.toNat ≤ 4096 ∧
        (∀ i call place, s.pc i = .inside call place → ∀ x, place.touches = some x → x < 4096) ∧
        delivered s.finished ++ unread s.obj = accepted s.finished ∧
        (∀ e ∈ s.finished, .call e.1 e.2.1 ∈ events ∧ Answers e.2.1 e.2.2) ∧
        ∀ i, Lock.resultsOf i s.finished = Lock.resultsOf i s.left ++ (s.pc i).pending := by
  obtain ⟨p, hr, hw, -, hzero⟩ := sys_pipe_spec hpipe
  refine ⟨p, hr, hw, hzero, fun events => ?_⟩
  rw [hzero]
  obtain ⟨hstream, hinside⟩ := run_stream events
  exact ⟨hstream.read_le, hstream.write_le, hinside, hstream.bytes,
    fun e he => ⟨Lock.call_of_finished he, hstream.answers e he⟩,
    Lock.returned_run events (Lock.returned_start _ _)⟩

theorem boot_pipe :
    ∃ k', sys_pipe (Kernel.boot ⟨Pmm.zero, fun _ => 0, 0, none⟩ 0) = .ok (0, some (0, 1), k') := by
  have hok : (sys_pipe (Kernel.boot ⟨Pmm.zero, fun _ => 0, 0, none⟩ 0)).toOption.any
      (fun r => r.1 == 0 && r.2.1 == some (0, 1)) := by
    decide +kernel
  obtain ⟨⟨ret, fds, k'⟩, hpipe, hfds⟩ := exists_of_any hok
  simp only [Bool.and_eq_true, beq_iff_eq] at hfds
  obtain ⟨rfl, rfl⟩ := hfds
  exact ⟨k', hpipe⟩

theorem moved_exists {w r : BitVec 64} (hw : 0 < w.toNat) (hle : w.toNat ≤ 4096)
    (hr : r.toNat ≤ w.toNat) :
    ∃ events : List PipeEvent, (pipe_run RelisPipe.zero events).lock = 0 ∧
      (pipe_run RelisPipe.zero events).obj.read_pos.toNat = r.toNat ∧
      (pipe_run RelisPipe.zero events).obj.write_pos.toNat = w.toNat := by
  have hfill := Ended.wrote (p := RelisPipe.zero.toPipeData) (fun _ => 7) w
  obtain ⟨n, p1, hwrite, hn, hb1, hread1, hunread1⟩ :=
    pipe_write_spec stream_zero.toBounded (fun _ => 7) w
  rw [hwrite] at hfill
  have hpos1 : p1.read_pos.toNat = 0 := by
    rw [hread1]
    rfl
  have hlen1 := congrArg List.length hunread1
  have hzero : RelisPipe.zero.write_pos.toNat = 0 := rfl
  simp only [length_unread, List.length_append, length_taken, hzero] at hlen1 hn
  have hne : p1.read_pos ≠ p1.write_pos := by
    intro heq
    rw [← heq] at hlen1
    omega
  obtain ⟨n2, buf, p2, hturn, hn2, hb2, hpos2, hunread2⟩ := pipe_read_turn_spec hb1 (fun _ => 0) r hne
  have hlen2 := congrArg List.length hunread2
  have hle2 := hb2.read_le
  simp only [length_unread, List.length_append, length_taken] at hlen2
  obtain ⟨events1, hrun1⟩ := Lock.run_alone (i := 0)
    (s := Lock.State.start Nat _ _ _ 0 RelisPipe.zero.toPipeData)
    rfl rfl (ends_iff.mpr hfill) rfl
  obtain ⟨events2, hrun2⟩ := Lock.run_alone (i := 0) (s := Lock.run pipe_section _ events1)
    (by rw [hrun1]; rfl) (by rw [hrun1]; rfl) (by rw [hrun1]; exact ends_iff.mpr (.got hturn)) rfl
  have hrun : pipe_run RelisPipe.zero (events1 ++ events2) = _ := (Lock.run_append _ _ _ _).trans hrun2
  refine ⟨events1 ++ events2, ?_, ?_, ?_⟩
  all_goals rw [hrun]
  · rw [hrun1]
    rfl
  · dsimp only
    omega
  · dsimp only
    omega

/-- Two bytes are written and one of them is read. -/
theorem pipe_is_stream_small :
    ∃ k k' p, sys_pipe k = .ok (0, some (0, 1), k') ∧ Opens k' 0 .pipe_read_fops p ∧
      ∃ events, (pipe_run (k'.pipe p) events).obj.read_pos.toNat = 1 ∧
        (pipe_run (k'.pipe p) events).obj.write_pos.toNat = 2 ∧
        delivered (pipe_run (k'.pipe p) events).finished ++ unread (pipe_run (k'.pipe p) events).obj =
          accepted (pipe_run (k'.pipe p) events).finished := by
  obtain ⟨k', hpipe⟩ := boot_pipe
  obtain ⟨p, hr, -, hzero, hrun⟩ := pipe_is_stream hpipe
  obtain ⟨events, -, hread, hwrite⟩ := moved_exists (w := 2) (r := 1) (by decide) (by decide) (by decide)
  rw [← hzero] at hread hwrite
  exact ⟨_, k', p, hpipe, hr, events, hread, hwrite, (hrun events).2.2.2.1⟩

/-! ## The end of the buffer -/

theorem Stream.length_accepted {h : History} (hs : Stream h p) :
    (accepted h).length = p.write_pos.toNat := by
  have hr := hs.read_le
  rw [← hs.bytes, List.length_append, hs.read_pos, length_unread]
  omega

/-- A write is taken as long as fewer than 4096 bytes have ever been accepted, and never after
that. -/
theorem pipe_write_accepts_iff {k k' : Kernel} {ret : Int} {rfd wfd : Nat}
    (hpipe : sys_pipe k = .ok (ret, some (rfd, wfd), k')) :
    ∃ p, Opens k' rfd .pipe_read_fops p ∧ Opens k' wfd .pipe_write_fops p ∧ k'.pipe p = RelisPipe.zero ∧
      ∀ (events : List PipeEvent) (buf : Nat → BitVec 8) (count : BitVec 64),
        let s := pipe_run (k'.pipe p) events
        (unread s.obj).length < 4096 → 0 < count.toNat →
        (0 < (pipe_write s.obj buf count).1.toNat ↔ s.obj.write_pos.toNat < 4096) ∧
        (accepted s.finished).length = s.obj.write_pos.toNat := by
  obtain ⟨p, hr, hw, -, hzero⟩ := sys_pipe_spec hpipe
  refine ⟨p, hr, hw, hzero, fun events buf count => ?_⟩
  rw [hzero]
  intro s _ hcount
  have hstream : Stream s.finished s.obj := (run_stream events).1
  obtain ⟨n, p', hwrite, hn, -⟩ := pipe_write_spec hstream.toBounded buf count
  refine ⟨?_, hstream.length_accepted⟩
  rw [hwrite, hn]
  omega

theorem pipe_write_accepts_small :
    ∃ k k' p, sys_pipe k = .ok (0, some (0, 1), k') ∧ Opens k' 1 .pipe_write_fops p ∧
      ∃ events, (unread (pipe_run (k'.pipe p) events).obj).length = 1 ∧
        (accepted (pipe_run (k'.pipe p) events).finished).length = 2 ∧
        (0 < (pipe_write (pipe_run (k'.pipe p) events).obj (fun _ => 7) 1).1.toNat ↔
          (pipe_run (k'.pipe p) events).obj.write_pos.toNat < 4096) := by
  obtain ⟨k', hpipe⟩ := boot_pipe
  obtain ⟨p, -, hw, hzero, haccept⟩ := pipe_write_accepts_iff hpipe
  obtain ⟨events, -, hread, hwrite⟩ := moved_exists (w := 2) (r := 1) (by decide)
    (by decide) (by decide)
  rw [← hzero] at hread hwrite
  have hone : (unread (pipe_run (k'.pipe p) events).obj).length = 1 := by
    rw [length_unread, hread, hwrite]
    rfl
  obtain ⟨hiff, hlen⟩ := haccept events (fun _ => 7) 1 (by omega) (by decide)
  exact ⟨_, k', p, hpipe, hw, events, hone, hlen.trans hwrite, hiff⟩

/-- The buffer is empty, the lock is free, and a write of one byte is not taken. -/
theorem pipe_write_refused :
    ∃ k k' p, sys_pipe k = .ok (0, some (0, 1), k') ∧ Opens k' 1 .pipe_write_fops p ∧
      ∃ events : List PipeEvent, (pipe_run (k'.pipe p) events).lock = 0 ∧
        unread (pipe_run (k'.pipe p) events).obj = [] ∧
        (pipe_write (pipe_run (k'.pipe p) events).obj (fun _ => 7) 1).1 = 0 := by
  obtain ⟨k', hpipe⟩ := boot_pipe
  obtain ⟨p, -, hw, -, hzero⟩ := sys_pipe_spec hpipe
  obtain ⟨events, hlock, hread, hwrite⟩ := moved_exists (w := 4096) (r := 4096) (by decide)
    (by decide) (by decide)
  have hstream := (run_stream events).1
  refine ⟨_, k', p, hpipe, hw, events, ?_⟩
  rw [hzero]
  refine ⟨hlock, ?_, ?_⟩
  · unfold unread
    simp [hread, hwrite]
  · obtain ⟨n, p', hfull, hn, -⟩ := pipe_write_spec hstream.toBounded (fun _ => 7) 1
    rw [hwrite] at hn
    rw [hfull]
    exact BitVec.eq_of_toNat_eq (by simpa using hn)

end Relis.Pipe
