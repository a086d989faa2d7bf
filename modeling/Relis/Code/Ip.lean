import Mathlib.Data.BitVec

/-!
# `net/ipv4/ip.c`: the header and its checksum

The machine is little-endian, and so are the words that the checksum adds.
-/

namespace Relis.Code

/-- `struct iphdr`, packed into 20 bytes. -/
structure Iphdr where
  ihl : BitVec 4
  version : BitVec 4
  tos : BitVec 8
  tot_len : BitVec 16
  id : BitVec 16
  frag_off : BitVec 16
  ttl : BitVec 8
  protocol : BitVec 8
  check : BitVec 16
  saddr : BitVec 32
  daddr : BitVec 32

/-- The low byte first. -/
def bytes16 (v : BitVec 16) : List (BitVec 8) := [v.setWidth 8, (v >>> 8).setWidth 8]

def bytes32 (v : BitVec 32) : List (BitVec 8) :=
  [v.setWidth 8, (v >>> 8).setWidth 8, (v >>> 16).setWidth 8, (v >>> 24).setWidth 8]

/-- The first bit-field is in the low half of its byte. -/
def Iphdr.bytes (hdr : Iphdr) : List (BitVec 8) :=
  [hdr.version ++ hdr.ihl, hdr.tos] ++ bytes16 hdr.tot_len ++ bytes16 hdr.id ++
    bytes16 hdr.frag_off ++ [hdr.ttl, hdr.protocol] ++ bytes16 hdr.check ++
    bytes32 hdr.saddr ++ bytes32 hdr.daddr

/-- The bytes through a `uint16_t *`. -/
def words16 : List (BitVec 8) → List (BitVec 16)
  | lo :: hi :: bytes => (hi ++ lo) :: words16 bytes
  | _ => []

/-- The first loop of `ip_checksum`. -/
def sum_words (words : List (BitVec 16)) : BitVec 32 :=
  words.foldl (fun sum w => sum + w.setWidth 32) 0

/-- The second loop, or nothing if it has not ended after `fuel` tests. -/
def fold_sum : Nat → BitVec 32 → Option (BitVec 32)
  | 0, _ => none
  | fuel + 1, sum =>
    if sum >>> 16 ≠ 0 then fold_sum fuel ((sum &&& 0xFFFF#32) + (sum >>> 16)) else some sum

def ip_checksum (hdr : Iphdr) : Option (BitVec 16) :=
  (fold_sum 3 (sum_words ((words16 hdr.bytes).take 10))).map fun sum => (~~~sum).setWidth 16

/-- The header of `ip_send_packet`: no field is brought into network order, and the
length is cut to 16 bits. -/
def ip_header (net_ip dest_ip : BitVec 32) (protocol : BitVec 8) (len : BitVec 32) : Option Iphdr :=
  let hdr : Iphdr :=
    { version := 4, ihl := 5, tos := 0, tot_len := (20 + len).setWidth 16, id := 1, frag_off := 0, ttl := 64
      protocol := protocol, saddr := net_ip, daddr := dest_ip, check := 0 }
  (ip_checksum hdr).map fun check => { hdr with check := check }

end Relis.Code
