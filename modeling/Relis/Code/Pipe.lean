import Relis.Code.String
import Relis.Lib.Lock

/-!
# `kernel/ipc.c`: the pipe

The buffer of a caller is an object of its own. The functions are there twice: as
they run to their end, and cut into the steps in which other processes can run.
-/

namespace Relis.Code

/-- `relis_pipe_t` without its lock. -/
structure PipeData where
  buffer : Nat → BitVec 8
  read_pos : BitVec 32
  write_pos : BitVec 32

structure RelisPipe extends PipeData where
  lock : BitVec 32

def sizeof_relis_pipe : BitVec 64 := 4108

/-- `kmemset(p, 0, sizeof(relis_pipe_t))` -/
def RelisPipe.zero : RelisPipe where
  buffer := fun _ => 0
  read_pos := 0
  write_pos := 0
  lock := 0

/-- `to_copy` of `pipe_read`. The difference is one of `uint32_t`. -/
def read_to_copy (p : PipeData) (count : BitVec 64) : BitVec 64 :=
  let to_copy := (p.write_pos - p.read_pos).setWidth 64
  if to_copy > count then count else to_copy

/-- `to_copy` of `pipe_write`. -/
def write_to_copy (p : PipeData) (count : BitVec 64) : BitVec 64 :=
  let space := (4096#32 - p.write_pos).setWidth 64
  if count < space then count else space

/-- `pos += to_copy` for a `uint32_t` and a `size_t`. -/
def advance (pos : BitVec 32) (to_copy : BitVec 64) : BitVec 32 :=
  (pos.setWidth 64 + to_copy).setWidth 32

/-- One turn of the loop of `pipe_read`: the value it returns, the buffer of the
caller and the pipe, or nothing when the turn ends with `schedule()`. -/
def pipe_read_turn (p : PipeData) (buf : Nat → BitVec 8) (count : BitVec 64) :
    Option (BitVec 64 × (Nat → BitVec 8) × PipeData) :=
  if p.read_pos ≠ p.write_pos then
    let to_copy := read_to_copy p count
    some (to_copy, kmemcpy_into buf p.buffer 0 p.read_pos.toNat to_copy.toNat,
      { p with read_pos := advance p.read_pos to_copy })
  else none

def pipe_write (p : PipeData) (buf : Nat → BitVec 8) (count : BitVec 64) : BitVec 64 × PipeData :=
  let to_copy := write_to_copy p count
  (to_copy, { p with
    buffer := kmemcpy_into p.buffer buf p.write_pos.toNat 0 to_copy.toNat
    write_pos := advance p.write_pos to_copy })

/-! ## Step by step -/

inductive PipeCall
  | read (buf : Nat → BitVec 8) (count : BitVec 64)
  | write (buf : Nat → BitVec 8) (count : BitVec 64)

/-- The places between `spin_lock` and `spin_unlock`. In `kmemcpy`, `i` bytes are
done, and `src` or `dest` is the index in `p->buffer` it was called with. -/
inductive PipePlace
  | read_test (buf : Nat → BitVec 8) (count : BitVec 64)
  | read_size (buf : Nat → BitVec 8) (count : BitVec 64)
  | read_copy (buf : Nat → BitVec 8) (src : Nat) (to_copy : BitVec 64) (i : Nat)
  | write_size (buf : Nat → BitVec 8) (count : BitVec 64)
  | write_copy (buf : Nat → BitVec 8) (dest : Nat) (to_copy : BitVec 64) (i : Nat)

/-- How a section ends: with the value to return, for a read also with the buffer of
the caller, or with `schedule()`. -/
inductive PipeResult
  | got (buf : Nat → BitVec 8) (n : BitVec 64)
  | nothing
  | wrote (n : BitVec 64)

def PipeCall.enter : PipeCall → PipePlace
  | .read buf count => .read_test buf count
  | .write buf count => .write_size buf count

def PipePlace.step : PipePlace → PipeData → (PipePlace ⊕ PipeResult) × PipeData
  | .read_test buf count, p =>
    if p.read_pos ≠ p.write_pos then (.inl (.read_size buf count), p) else (.inr .nothing, p)
  | .read_size buf count, p => (.inl (.read_copy buf p.read_pos.toNat (read_to_copy p count) 0), p)
  | .read_copy buf src to_copy i, p =>
    if i < to_copy.toNat then
      (.inl (.read_copy (Function.update buf i (p.buffer (src + i))) src to_copy (i + 1)), p)
    else (.inr (.got buf to_copy), { p with read_pos := advance p.read_pos to_copy })
  | .write_size buf count, p => (.inl (.write_copy buf p.write_pos.toNat (write_to_copy p count) 0), p)
  | .write_copy buf dest to_copy i, p =>
    if i < to_copy.toNat then
      (.inl (.write_copy buf dest to_copy (i + 1)),
        { p with buffer := Function.update p.buffer (dest + i) (buf i) })
    else (.inr (.wrote to_copy), { p with write_pos := advance p.write_pos to_copy })

/-- The index of `p->buffer` that the next step reads or writes. -/
def PipePlace.touches : PipePlace → Option Nat
  | .read_copy _ src to_copy i => if i < to_copy.toNat then some (src + i) else none
  | .write_copy _ dest to_copy i => if i < to_copy.toNat then some (dest + i) else none
  | _ => none

/-- `pipe_read` goes round its loop when it has found nothing. -/
def PipeResult.again : PipeResult → Bool
  | .nothing => true
  | _ => false

def pipe_section : Lock.Section PipeData PipeCall PipePlace PipeResult where
  enter := PipeCall.enter
  step := PipePlace.step
  again := PipeResult.again

abbrev PipeState := Lock.State Nat PipeData PipeCall PipePlace PipeResult

abbrev PipeEvent := Lock.Event Nat PipeCall

/-- Processes that work on the pipe, from a moment when none is in its code. -/
def pipe_run (p : RelisPipe) (events : List PipeEvent) : PipeState :=
  Lock.run pipe_section (Lock.State.start _ _ _ _ p.lock p.toPipeData) events

end Relis.Code
