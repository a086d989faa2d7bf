import Relis.Code.Ip
import Relis.Code.PageAlloc
import Relis.Code.Slab

/-!
# `net/ipv4/ip.c` and `net/ipv4/udp.c`: packets

The message of `printk` is left out.
-/

open Relis.Bytes

namespace Relis.Code

def IP4 (a b c d : BitVec 8) : BitVec 32 :=
  a.setWidth 32 ||| (b.setWidth 32 <<< 8) ||| (c.setWidth 32 <<< 16) ||| (d.setWidth 32 <<< 24)

/-- `struct sk_buff`. The other fields are not used. -/
structure SkBuff where
  data : Mem
  len : BitVec 32

def sizeof_sk_buff : BitVec 64 := 1552

/-- `sk_buffs` are the bytes that the heap has at an offset, as a `struct sk_buff`. -/
structure Net where
  heap_ptr : BitVec 32
  sk_buffs : Nat → SkBuff
  net_ip : BitVec 32

/-- The fields of a packed struct, stored at the start of an object. -/
def put_header (m : Mem) (bytes : List (BitVec 8)) : Mem := fun x => bytes.getD x (m x)

/-- `kmemcpy(dest + d, src, n)`, which must stay inside of the `size` bytes of `dest`. -/
def copy_inside (size : Nat) (dest : Mem) (d : Nat) (src : Mem) (n : Nat) : Except Halt Mem :=
  if d + n ≤ size then .ok (kmemcpy_into dest src d 0 n) else .error .overrun

def ip_send_packet (s : Net) (dest_ip : BitVec 32) (protocol : BitVec 8) (data : Mem)
    (len : BitVec 32) : Except Halt (Int × Net) :=
  match kmalloc s.heap_ptr sizeof_sk_buff with
  | (none, _) => .ok (-1, s)
  | (some skb, heap_ptr) => do
    match ip_header s.net_ip dest_ip protocol len with
    | none => .error .endless
    | some hdr =>
      let bytes ← copy_inside 1536 (put_header (s.sk_buffs skb).data hdr.bytes) 20 data len.toNat
      .ok (0, { s with
        heap_ptr := kfree heap_ptr (some skb)
        sk_buffs := Function.update s.sk_buffs skb ⟨bytes, hdr.tot_len.setWidth 32⟩ })

/-- `struct udphdr`, packed into 8 bytes. -/
structure Udphdr where
  source : BitVec 16
  dest : BitVec 16
  len : BitVec 16
  check : BitVec 16

def Udphdr.bytes (udp : Udphdr) : List (BitVec 8) :=
  bytes16 udp.source ++ bytes16 udp.dest ++ bytes16 udp.len ++ bytes16 udp.check

/-- `buf` is the array of the function, with what the stack has there before. -/
def udp_send_packet (s : Net) (buf : Mem) (dest_ip : BitVec 32) (dest_port : BitVec 16) (data : Mem)
    (len : BitVec 32) : Except Halt (Int × Net) := do
  let udp : Udphdr := { source := 1234, dest := dest_port, len := (8 + len).setWidth 16, check := 0 }
  let buf ← copy_inside 1024 (put_header buf udp.bytes) 8 data len.toNat
  ip_send_packet s dest_ip 17 buf (udp.len.setWidth 32)

end Relis.Code
