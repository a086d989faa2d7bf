import Mathlib.Data.List.Basic
import Mathlib.Logic.Function.Basic

/-!
# `drivers/keyboard.c`

An interrupt comes with the byte that it reads from the data port. `update_leds`
only talks to the controller and is left out. `keyboard_poll` is cut into the
steps between which an interrupt can come.
-/

namespace Relis.Code

def KB_BUF_SIZE : BitVec 32 := 256

/-- A character for `push`, with the key it is for. -/
inductive KeyByte
  | char (c : BitVec 8)
  | marker (sc : BitVec 8)
  | code (sc : BitVec 8)
  deriving DecidableEq

def KeyByte.byte : KeyByte → BitVec 8
  | .char c => c
  | .marker _ => 0xE0
  | .code sc => sc

def keys (rows : List (List Char)) : List (BitVec 8) :=
  rows.flatten.map fun c => BitVec.ofNat 8 c.toNat

/-- The entries after the rows are zero. -/
def normal : List (BitVec 8) := keys [
  ['\x00', '\x00', '1', '2', '3', '4', '5', '6'],
  ['7', '8', '9', '0', '-', '=', '\x08', '\t'],
  ['q', 'w', 'e', 'r', 't', 'y', 'u', 'i'],
  ['o', 'p', '[', ']', '\n', '\x00', 'a', 's'],
  ['d', 'f', 'g', 'h', 'j', 'k', 'l', ';'],
  ['\x27', '\x60', '\x00', '\\', 'z', 'x', 'c', 'v'],
  ['b', 'n', 'm', ',', '.', '/', '\x00', '*'],
  ['\x00', ' ', '\x00', '\x00', '\x00', '\x00', '\x00', '\x00'],
  ['\x00', '\x00', '\x00', '\x00', '\x00', '\x00', '\x00', '7'],
  ['8', '9', '-', '4', '5', '6', '+', '1'],
  ['2', '3', '0', '.', '\x00', '\x00', '\x00', '\x00']]

def shifted : List (BitVec 8) := keys [
  ['\x00', '\x00', '!', '@', '#', '$', '%', '^'],
  ['&', '*', '(', ')', '_', '+', '\x08', '\t'],
  ['Q', 'W', 'E', 'R', 'T', 'Y', 'U', 'I'],
  ['O', 'P', '\x7b', '\x7d', '\n', '\x00', 'A', 'S'],
  ['D', 'F', 'G', 'H', 'J', 'K', 'L', ':'],
  ['\x22', '~', '\x00', '|', 'Z', 'X', 'C', 'V'],
  ['B', 'N', 'M', '<', '>', '?', '\x00', '*'],
  ['\x00', ' ', '\x00', '\x00', '\x00', '\x00', '\x00', '\x00'],
  ['\x00', '\x00', '\x00', '\x00', '\x00', '\x00', '\x00', '7'],
  ['8', '9', '-', '4', '5', '6', '+', '1'],
  ['2', '3', '0', '.', '\x00', '\x00', '\x00', '\x00']]

/-- The static variables. `accepted` is what `push` has stored, `returned` what the polls have taken out,
and `dropped` has for each character that `push` has left out how many of the accepted ones had not been
taken out. No code reads the three. -/
structure Keyboard where
  buf : Nat → BitVec 8
  rp : BitVec 32
  wp : BitVec 32
  shift : Bool
  ctrl : Bool
  alt : Bool
  caps : Bool
  num : Bool
  scroll : Bool
  extended : Bool
  accepted : List KeyByte
  dropped : List Nat
  returned : List (BitVec 8)

def Keyboard.push (k : Keyboard) (b : KeyByte) : Keyboard :=
  let next := (k.wp + 1) % KB_BUF_SIZE
  if next ≠ k.rp then
    { k with buf := Function.update k.buf k.wp.toNat b.byte, wp := next, accepted := k.accepted ++ [b] }
  else { k with dropped := k.dropped ++ [k.accepted.length - k.returned.length] }

def is_letter (c : BitVec 8) : Bool := (0x61 ≤ c && c ≤ 0x7A) || (0x41 ≤ c && c ≤ 0x5A)

/-- What a key press that is neither extended nor a modifier pushes, if anything. -/
def key_char (k : Keyboard) (sc : BitVec 8) : Option (BitVec 8) :=
  if k.ctrl && sc == 0x2E then some 0x03
  else if k.ctrl && sc == 0x26 then some 0x0C
  else
    let c := (if k.shift then shifted else normal).getD sc.toNat 0
    if c = 0 then none
    else if k.caps && is_letter c then
      if k.shift then some (if 0x41 ≤ c && c ≤ 0x5A then c + 32 else c)
      else some (if 0x61 ≤ c && c ≤ 0x7A then c - 32 else c)
    else some c

def key_release (k : Keyboard) (r : BitVec 8) : Keyboard :=
  { k with
    shift := if r == 0x2A || r == 0x36 then false else k.shift
    ctrl := if r == 0x1D then false else k.ctrl
    alt := if r == 0x38 then false else k.alt }

def key_press (k : Keyboard) (sc : BitVec 8) : Keyboard :=
  if sc == 0x2A || sc == 0x36 then { k with shift := true }
  else if sc == 0x1D then { k with ctrl := true }
  else if sc == 0x38 then { k with alt := true }
  else if sc == 0x3A then { k with caps := !k.caps }
  else if sc == 0x45 then { k with num := !k.num }
  else if sc == 0x46 then { k with scroll := !k.scroll }
  else match key_char k sc with
    | none => k
    | some c => k.push (.char c)

def kb_irq (k : Keyboard) (sc : BitVec 8) : Keyboard :=
  if sc = 0xE0 then { k with extended := true }
  else if k.extended then
    let k := { k with extended := false }
    if sc &&& 0x80 ≠ 0 then k else (k.push (.marker sc)).push (.code sc)
  else if sc &&& 0x80 ≠ 0 then key_release k (sc &&& 0x7F)
  else key_press k sc

def keyboard_init (k : Keyboard) : Keyboard :=
  { k with
    rp := 0, wp := 0, shift := false, ctrl := false, alt := false, caps := false,
    num := false, scroll := false }

def Keyboard.zero : Keyboard where
  buf := fun _ => 0
  rp := 0
  wp := 0
  shift := false
  ctrl := false
  alt := false
  caps := false
  num := false
  scroll := false
  extended := false
  accepted := []
  dropped := []
  returned := []

/-! ## The steps of `keyboard_poll` -/

inductive PollPlace
  | out
  | test
  | read
  | update (c : BitVec 8)

structure KbState where
  kb : Keyboard
  poll : PollPlace

/-- The next step of the poll. A poll that finds nothing returns 0. -/
def poll_step (s : KbState) : KbState :=
  match s.poll with
  | .out => { s with poll := .test }
  | .test => { s with poll := if s.kb.rp ≠ s.kb.wp then .read else .out }
  | .read => { s with poll := .update (s.kb.buf s.kb.rp.toNat) }
  | .update c =>
    { kb := { s.kb with rp := (s.kb.rp + 1) % KB_BUF_SIZE, returned := s.kb.returned ++ [c] }
      poll := .out }

/-- An interrupt, or the next step of the poll. -/
inductive KbEvent
  | irq (sc : BitVec 8)
  | poll

def kb_step (s : KbState) : KbEvent → KbState
  | .irq sc => { s with kb := kb_irq s.kb sc }
  | .poll => poll_step s

def kb_run (events : List KbEvent) : KbState := events.foldl kb_step ⟨keyboard_init .zero, .out⟩

end Relis.Code
