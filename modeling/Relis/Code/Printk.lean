import Relis.Code.String
import Relis.Code.Vga

/-!
# `kernel/printk/printk.c`

Characters go to the screen and to the serial port. The lock is left out here.
-/

open Relis.Bytes

namespace Relis.Code

/-- `serial` is what has been sent to the port 0x3F8. -/
structure Console where
  vga : Vga
  serial : List (BitVec 8)

/-- An argument: 32 bits, or a pointer to a string. -/
inductive Arg
  | int (n : BitVec 32)
  | str (s : CString)

def print_char (k : Console) (c : BitVec 8) : Console := ⟨terminal_putchar k.vga c, k.serial ++ [c]⟩

/-- `print_string(s)` for the string with the bytes of the list. -/
def print_string (k : Console) (s : List (BitVec 8)) : Console := s.foldl print_char k

/-- The first loop of `print_int`. The byte stored last comes first, and `room` is what is left of
the 16 bytes of `buf`. -/
def int_digits : Nat → BitVec 32 → List (BitVec 8) → Option (List (BitVec 8))
  | 0, n, buf => if BitVec.slt 0 n then none else some buf
  | room + 1, n, buf =>
    if BitVec.slt 0 n then int_digits room (n.sdiv 10) ((n.srem 10 + 48).setWidth 8 :: buf) else some buf

def print_int (k : Console) (n : BitVec 32) : Option Console :=
  if n = 0 then some (print_char k 48)
  else
    let (k, n) := if BitVec.slt n 0 then (print_char k 45, -n) else (k, n)
    (int_digits 16 n []).map fun buf => buf.foldl print_char k

/-- The first loop of `print_hex`. -/
def hex_digits : Nat → BitVec 32 → List (BitVec 8) → Option (List (BitVec 8))
  | 0, n, buf => if n > 0 then none else some buf
  | room + 1, n, buf =>
    if n > 0 then
      let rem := n % 16
      hex_digits room (n / 16) ((if rem < 10 then rem + 48 else rem - 10 + 97).setWidth 8 :: buf)
    else some buf

def print_hex (k : Console) (n : BitVec 32) : Option Console :=
  if n = 0 then some (print_string k [48, 120, 48])
  else (hex_digits 16 n []).map fun buf => buf.foldl print_char (print_string k [48, 120])

/-- The `switch`, with the arguments that are left. A `va_arg` of the wrong kind is undefined. -/
def printk_directive (c : BitVec 8) (args : List Arg) (k : Console) : Option (List Arg × Console) :=
  if c = 100 then
    match args with
    | .int n :: args => (print_int k n).map fun k => (args, k)
    | _ => none
  else if c = 115 then
    match args with
    | .str s :: args => some (args, print_string k s.bytes)
    | _ => none
  else if c = 120 then
    match args with
    | .int n :: args => (print_hex k n).map fun k => (args, k)
    | _ => none
  else if c = 99 then
    match args with
    | .int n :: args => some (args, print_char k (n.setWidth 8))
    | _ => none
  else if c = 37 then some (args, print_char k 37)
  else some (args, print_char (print_char k 37) c)

/-- The loop over the format, from the index `i` on. `reads` are the indices that have been read;
the loop has not ended when there is no fuel left. -/
def printk_loop (fmt : Mem) : Nat → Nat → List Nat → List Arg → Console → Option (List Nat × Console)
  | 0, _, _, _, _ => none
  | fuel + 1, i, reads, args, k =>
    if fmt i = 0 then some (i :: reads, k)
    else if fmt i = 37 then
      match printk_directive (fmt (i + 1)) args k with
      | none => none
      | some (args, k) => printk_loop fmt fuel (i + 2) ((i + 1) :: i :: reads) args k
    else printk_loop fmt fuel (i + 1) (i :: reads) args (print_char k (fmt i))

/-- `[RELIS] ` -/
def relis_tag : List (BitVec 8) := [91, 82, 69, 76, 73, 83, 93, 32]

def VGA_COLOR_BLACK : BitVec 8 := 0
def VGA_COLOR_LIGHT_GREEN : BitVec 8 := 10
def VGA_COLOR_WHITE : BitVec 8 := 15

/-- `fmt` is the memory from the format on. -/
def printk (fuel : Nat) (fmt : Mem) (args : List Arg) (k : Console) : Option (List Nat × Console) :=
  let k := { k with vga := terminal_setcolor k.vga VGA_COLOR_LIGHT_GREEN VGA_COLOR_BLACK }
  let k := print_string k relis_tag
  let k := { k with vga := terminal_setcolor k.vga VGA_COLOR_WHITE VGA_COLOR_BLACK }
  (printk_loop fmt fuel 0 [] args k).map fun (reads, k) => (reads, print_char k 10)

end Relis.Code
