import Relis.Lib.Holes

/-!
# `lib/string.c`: copying, comparing, searching and parsing

The functions take pointers, and each load and store may fault. The loops that only a
zero byte ends have a number of turns that they are given.
-/

open Relis.Holes

namespace Relis.Code.StringPtr

/-! ## Copying -/

structure Copied where
  d : BitVec 64
  src : BitVec 64
  n : Nat
  mem : Space

/-- `while (n > last && *src) { *d++ = *src++; n--; }` -/
def copy_loop (last : Nat) (m : Space) (d src : BitVec 64) : Nat → Except Fault Copied
  | 0 => .ok ⟨d, src, 0, m⟩
  | n + 1 =>
    if n + 1 > last then do
      let c ← load m src
      if c = 0 then return ⟨d, src, n + 1, m⟩
      let m ← store m d c
      copy_loop last m (d + 1) (src + 1) n
    else .ok ⟨d, src, n + 1, m⟩

/-- `while (n--) *d++ = 0;` -/
def zero_loop (m : Space) (d : BitVec 64) : Nat → Except Fault Space
  | 0 => .ok m
  | n + 1 => do
    let m ← store m d 0
    zero_loop m (d + 1) n

/-- `while (*d) d++;` -/
def end_loop (m : Space) : Nat → BitVec 64 → Except Fault (BitVec 64)
  | 0, _ => .error .endless
  | fuel + 1, d => do
    let c ← load m d
    if c = 0 then return d
    end_loop m fuel (d + 1)

def kstrncpy (m : Space) (dest src n : BitVec 64) : Except Fault (BitVec 64 × Space) := do
  let r ← copy_loop 0 m dest src n.toNat
  let m ← zero_loop r.mem r.d r.n
  return (dest, m)

/-- The loop leaves one byte of the count for the terminator. -/
def kstrscpy (m : Space) (dest src count : BitVec 64) : Except Fault (BitVec 64 × Space) :=
  if count = 0 then .ok (0, m)
  else do
    let r ← copy_loop 1 m dest src count.toNat
    let m ← store r.mem r.d 0
    return (r.src - src, m)

/-- The test of the loop counts `n` down once more at its end, and nothing reads it then. -/
def kstrncat (m : Space) (fuel : Nat) (dest src n : BitVec 64) : Except Fault (BitVec 64 × Space) :=
  do
  let d ← end_loop m fuel dest
  let r ← copy_loop 0 m d src n.toNat
  let m ← store r.mem r.d 0
  return (dest, m)

/-! ## Comparison -/

/-- `*(const unsigned char *)a - *(const unsigned char *)b` -/
def byte_difference (m : Space) (a b : BitVec 64) : Except Fault Int := do
  let x ← load m a
  let y ← load m b
  return x.toNat - y.toNat

def kmemcmp_loop (m : Space) (p1 p2 : BitVec 64) : Nat → Except Fault Int
  | 0 => .ok 0
  | n + 1 => do
    let x ← load m p1
    let y ← load m p2
    if x ≠ y then byte_difference m p1 p2
    else kmemcmp_loop m (p1 + 1) (p2 + 1) n

def kmemcmp (m : Space) (s1 s2 n : BitVec 64) : Except Fault Int := kmemcmp_loop m s1 s2 n.toNat

/-- The byte of `b` is loaded only when that of `a` is not zero. -/
def kstrcmp (m : Space) : Nat → BitVec 64 → BitVec 64 → Except Fault Int
  | 0, _, _ => .error .endless
  | fuel + 1, a, b => do
    let x ← load m a
    if x = 0 then byte_difference m a b
    else
      let y ← load m b
      if x = y then kstrcmp m fuel (a + 1) (b + 1)
      else byte_difference m a b

def kstrncmp_loop (m : Space) (a b : BitVec 64) : Nat → Except Fault Int
  | 0 => .ok 0
  | n + 1 => do
    let x ← load m a
    if x = 0 then byte_difference m a b
    else
      let y ← load m b
      if x = y then kstrncmp_loop m (a + 1) (b + 1) n
      else byte_difference m a b

def kstrncmp (m : Space) (a b n : BitVec 64) : Except Fault Int := kstrncmp_loop m a b n.toNat

/-! ## Searching -/

/-- `(char)c` are the low eight bits of the `int`. -/
def kstrchr (m : Space) (c : BitVec 32) : Nat → BitVec 64 → Except Fault (BitVec 64)
  | 0, _ => .error .endless
  | fuel + 1, s => do
    let x ← load m s
    if x = 0 then return (if c = 0 then s else 0)
    else if x = c.setWidth 8 then return s
    else kstrchr m c fuel (s + 1)

/-- The inner loop of `kstrstr`, which ends with its `n`. -/
def kstrstr_match (m : Space) : Nat → BitVec 64 → BitVec 64 → Except Fault (BitVec 64)
  | 0, _, _ => .error .endless
  | fuel + 1, h, n => do
    let x ← load m h
    if x = 0 then return n
    let y ← load m n
    if y = 0 then return n
    if x = y then kstrstr_match m fuel (h + 1) (n + 1)
    else return n

def kstrstr_from (m : Space) (turns : Nat) (needle : BitVec 64) :
    Nat → BitVec 64 → Except Fault (BitVec 64)
  | 0, _ => .error .endless
  | fuel + 1, haystack => do
    let c ← load m haystack
    if c = 0 then return 0
    let n ← kstrstr_match m turns haystack needle
    let y ← load m n
    if y = 0 then return haystack
    kstrstr_from m turns needle fuel (haystack + 1)

def kstrstr (m : Space) (fuel : Nat) (haystack needle : BitVec 64) : Except Fault (BitVec 64) := do
  let c ← load m needle
  if c = 0 then return haystack
  kstrstr_from m fuel needle fuel haystack

/-! ## Parsing -/

structure Separated where
  field : BitVec 64
  stringp : BitVec 64
  mem : Space

def kstrsep_from (m : Space) (turns : Nat) (delim s : BitVec 64) :
    Nat → BitVec 64 → Except Fault Separated
  | 0, _ => .error .endless
  | fuel + 1, stop => do
    let c ← load m stop
    if c = 0 then return ⟨s, 0, m⟩
    let found ← kstrchr m (c.signExtend 32) turns delim
    if found ≠ 0 then
      let m ← store m stop 0
      return ⟨s, stop + 1, m⟩
    else kstrsep_from m turns delim s fuel (stop + 1)

def kstrsep (m : Space) (fuel : Nat) (stringp delim : BitVec 64) : Except Fault Separated :=
  if stringp = 0 then .ok ⟨0, stringp, m⟩
  else kstrsep_from m fuel delim stringp fuel stringp

/-- A caller that goes on until `kstrsep` returns null: what each call returned, with the memory
right after it, and the memory in the end. -/
def kstrsep_all (turns : Nat) (delim : BitVec 64) :
    Nat → Space → BitVec 64 → Except Fault (List (BitVec 64 × Space) × Space)
  | 0, _, _ => .error .endless
  | fuel + 1, m, stringp => do
    let r ← kstrsep m turns stringp delim
    if r.field = 0 then return ([], r.mem)
    let (rest, last) ← kstrsep_all turns delim fuel r.mem r.stringp
    return ((r.field, r.mem) :: rest, last)

end Relis.Code.StringPtr
