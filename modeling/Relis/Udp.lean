import Mathlib.Tactic
import Relis.Checksum
import Relis.Code.Udp
import Relis.Lib.Run
import Relis.Slab

/-!
# What a receiver reads from a packet

The fields of two bytes are in the order of the machine, and a receiver reads them in
network order.
-/

open Relis.Bytes Relis.Checksum Relis.Code Relis.Run Relis.Slab

namespace Relis.Udp

/-! ## The wire format -/

structure Datagram where
  tot_len : BitVec 16
  daddr : BitVec 32
  source : BitVec 16
  dest : BitVec 16
  len : BitVec 16
  payload : List (BitVec 8)
  deriving DecidableEq

def network (b0 b1 : BitVec 8) : BitVec 16 := b0 ++ b1

def host (b0 b1 : BitVec 8) : BitVec 16 := b1 ++ b0

/-- An IPv4 packet with a UDP datagram, where `word` reads a field of two bytes. An address is as
`IP4` makes it. -/
def decode (word : BitVec 8 → BitVec 8 → BitVec 16) (bytes : List (BitVec 8)) : Option Datagram :=
  let byte i := bytes.getD i 0
  let udp := 4 * ((byte 0).toNat % 16)
  if (byte 0).toNat / 16 = 4 ∧ byte 9 = 17 ∧ udp + 8 ≤ bytes.length then
    some {
      tot_len := word (byte 2) (byte 3)
      daddr := IP4 (byte 16) (byte 17) (byte 18) (byte 19)
      source := word (byte udp) (byte (udp + 1))
      dest := word (byte (udp + 2)) (byte (udp + 3))
      len := word (byte (udp + 4)) (byte (udp + 5))
      payload := (bytes.drop (udp + 8)).take ((word (byte (udp + 4)) (byte (udp + 5))).toNat - 8) }
  else none

def payload (data : Mem) (len : BitVec 32) : List (BitVec 8) := (List.range len.toNat).map data

structure Carries (g : Datagram) (dest_ip : BitVec 32) (dest_port : BitVec 16) (data : Mem)
  (len : BitVec 32) :
    Prop where
  tot_len : g.tot_len.toNat = 20 + 8 + len.toNat
  daddr : g.daddr = dest_ip
  source : g.source = 1234
  dest : g.dest = dest_port
  payload : g.payload = payload data len
  len : g.len.toNat = 8 + len.toNat

def packet (skb : SkBuff) : List (BitVec 8) := (List.range skb.len.toNat).map skb.data

/-- The call stays in its buffers, and returns an error or has made a packet that carries what it
was given. -/
def Sends (word : BitVec 8 → BitVec 8 → BitVec 16) (s : Net) (buf : Mem) (dest_ip : BitVec 32)
    (dest_port : BitVec 16) (data : Mem) (len : BitVec 32) : Prop :=
  ∃ ret s', udp_send_packet s buf dest_ip dest_port data len = .ok (ret, s') ∧
    (ret < 0 ∨ ∃ g, decode word (packet (s'.sk_buffs s.heap_ptr.toNat)) = some g ∧
      Carries g dest_ip dest_port data len)

variable {s : Net} {buf data : Mem} {dest_ip : BitVec 32} {dest_port : BitVec 16} {len : BitVec 32}

/-! ## The bytes of a packet -/

theorem map_put_header (m : Mem) (header : List (BitVec 8)) :
    (List.range header.length).map (put_header m header) = header := by
  apply List.ext_getElem
  · simp
  · intro i hi hi'
    simp [put_header, hi']

theorem map_copy (m src : Mem) (header : List (BitVec 8)) (n : Nat) :
    (List.range (header.length + n)).map (kmemcpy_into (put_header m header) src header.length 0 n) =
      header ++ (List.range n).map src := by
  rw [List.range_add, List.map_append, List.map_map]
  have hfirst : (List.range header.length).map
    (kmemcpy_into (put_header m header) src header.length 0 n) =
      (List.range header.length).map (put_header m header) := by
    refine List.map_congr_left fun x hx => ?_
    rw [List.mem_range] at hx
    rw [kmemcpy_into_apply, if_neg (by omega)]
  have hlast :
      (List.range n).map
          (kmemcpy_into (put_header m header) src header.length 0 n ∘ (header.length + ·)) =
        (List.range n).map src := by
    refine List.map_congr_left fun x hx => ?_
    rw [List.mem_range] at hx
    rw [Function.comp_apply, kmemcpy_into_apply, if_pos (by omega), Nat.zero_add,
      Nat.add_sub_cancel_left]
  rw [hfirst, hlast, map_put_header]

theorem toNat_size_add (n : Nat) (h : n + len.toNat < 65536) :
    (BitVec.ofNat 32 n + len).toNat = n + len.toNat := by
  rw [BitVec.toNat_add, BitVec.toNat_ofNat]
  omega

theorem cut_of_lt {v : BitVec 32} (h : v.toNat < 65536) : (v.setWidth 16).setWidth 32 = v := by
  rw [← BitVec.toNat_inj, BitVec.toNat_setWidth, BitVec.toNat_setWidth]
  omega

theorem ip_send_packet_spec (s : Net) (dest_ip : BitVec 32) (protocol : BitVec 8) (data : Mem)
    (hlen : len.toNat ≤ 1516) :
    (4194304 < s.heap_ptr.toNat + 1552 ∧ ip_send_packet s dest_ip protocol data len = .ok (-1, s)) ∨
    s.heap_ptr.toNat + 1552 ≤ 4194304 ∧ ∃ check s',
      ip_send_packet s dest_ip protocol data len = .ok (0, s') ∧
      packet (s'.sk_buffs s.heap_ptr.toNat) =
        (sentHeader s.net_ip dest_ip protocol len check).bytes ++ payload data len := by
  unfold ip_send_packet
  rcases kmalloc_spec s.heap_ptr sizeof_sk_buff (by decide) with ⟨hk, hlt⟩ | ⟨heap_ptr, hk, hle, -⟩
  · rw [hk]
    exact .inl ⟨hlt, rfl⟩
  obtain ⟨check, hheader, -⟩ := ip_header_verifies s.net_ip dest_ip protocol len
  rw [hk, hheader]
  dsimp only
  rw [copy_inside, if_pos (by omega)]
  refine .inr ⟨hle, check, _, rfl, ?_⟩
  have hadd : (20 + len).toNat = 20 + len.toNat := toNat_size_add 20 (by omega)
  have htotal : (((20 + len).setWidth 16).setWidth 32).toNat = 20 + len.toNat := by
    rw [cut_of_lt (by omega), hadd]
  dsimp only
  rw [packet, Function.update_self]
  change (List.range (((20 + len).setWidth 16).setWidth 32).toNat).map _ = _
  rw [htotal]
  exact map_copy _ _ (sentHeader s.net_ip dest_ip protocol len check).bytes _

def sentUdp (dest_port : BitVec 16) (len : BitVec 32) : Udphdr :=
  { source := 1234, dest := dest_port, len := (8 + len).setWidth 16, check := 0 }

theorem udp_send_packet_overrun (hlen : 1016 < len.toNat) :
    udp_send_packet s buf dest_ip dest_port data len = .error .overrun := by
  unfold udp_send_packet
  dsimp only
  rw [copy_inside, if_neg (by omega)]
  rfl

theorem udp_send_packet_spec (s : Net) (buf : Mem) (dest_ip : BitVec 32) (dest_port : BitVec 16)
    (data : Mem) (hlen : len.toNat ≤ 1016) :
    (4194304 < s.heap_ptr.toNat + 1552 ∧ udp_send_packet s buf dest_ip dest_port data len =
      .ok (-1, s)) ∨
    s.heap_ptr.toNat + 1552 ≤ 4194304 ∧ ∃ check s',
      udp_send_packet s buf dest_ip dest_port data len = .ok (0, s') ∧
      packet (s'.sk_buffs s.heap_ptr.toNat) =
        (sentHeader s.net_ip dest_ip 17 (8 + len) check).bytes ++
        ((sentUdp dest_port len).bytes ++ payload data len) := by
  have hadd : (8 + len).toNat = 8 + len.toNat := toNat_size_add 8 (by omega)
  have hbuf := map_copy buf data (sentUdp dest_port len).bytes len.toNat
  have hpacket :
      payload (kmemcpy_into (put_header buf (sentUdp dest_port len).bytes) data 8 0 len.toNat)
          (8 + len) =
        (sentUdp dest_port len).bytes ++ payload data len := by
    rw [payload, hadd]
    exact hbuf
  have heq : udp_send_packet s buf dest_ip dest_port data len = ip_send_packet s dest_ip 17
      (kmemcpy_into (put_header buf (sentUdp dest_port len).bytes) data 8 0 len.toNat) (8 + len) := by
    have hcopy : copy_inside 1024 (put_header buf (sentUdp dest_port len).bytes) 8 data len.toNat =
        .ok _ := if_pos (by omega)
    change (copy_inside 1024 (put_header buf (sentUdp dest_port len).bytes) 8 data len.toNat
      >>= fun buf =>
      ip_send_packet s dest_ip 17 buf (((8 + len).setWidth 16).setWidth 32)) = _
    rw [hcopy, cut_of_lt (by omega)]
    simp only [bind, Except.bind]
  rw [heq, ← hpacket]
  exact ip_send_packet_spec s dest_ip 17 _ (by omega)

/-! ## Reading it -/

def reread (word : BitVec 8 → BitVec 8 → BitVec 16) (v : BitVec 16) : BitVec 16 :=
  word (v.setWidth 8) ((v >>> 8).setWidth 8)

theorem reread_host (v : BitVec 16) : reread host v = v := append_bytes16 v

theorem IP4_bytes32 (v : BitVec 32) :
    IP4 (v.setWidth 8) ((v >>> 8).setWidth 8) ((v >>> 16).setWidth 8) ((v >>> 24).setWidth 8) =
      v := by
  apply BitVec.eq_of_getLsbD_eq
  intro i hi
  simp only [IP4, BitVec.getLsbD_or, BitVec.getLsbD_setWidth, BitVec.getLsbD_shiftLeft,
    BitVec.getLsbD_ushiftRight, hi, decide_true, Bool.true_and]
  -- Each bit is in one of the four bytes.
  rcases (by omega : i < 8 ∨ (8 ≤ i ∧ i < 16) ∨ (16 ≤ i ∧ i < 24) ∨ 24 ≤ i) with
    h | ⟨h, h'⟩ | ⟨h, h'⟩ | h
  all_goals grind

theorem decode_headers (word : BitVec 8 → BitVec 8 → BitVec 16) (hdr : Iphdr) (udp : Udphdr)
    (rest : List (BitVec 8)) (hversion : hdr.version = 4) (hihl : hdr.ihl = 5)
    (hprotocol : hdr.protocol = 17) :
    decode word (hdr.bytes ++ (udp.bytes ++ rest)) = some {
      tot_len := reread word hdr.tot_len
      daddr := hdr.daddr
      source := reread word udp.source
      dest := reread word udp.dest
      len := reread word udp.len
      payload := rest.take ((reread word udp.len).toNat - 8) } := by
  obtain ⟨bytes, hbytes⟩ : ∃ bytes, bytes = hdr.bytes ++ (udp.bytes ++ rest) := ⟨_, rfl⟩
  have hfirst : bytes.getD 0 0 = 0x45 := by
    rw [hbytes]
    change (hdr.version ++ hdr.ihl : BitVec 8) = _
    rw [hversion, hihl]
    rfl
  have hkind : bytes.getD 9 0 = 17 := by
    rw [hbytes]
    exact hprotocol
  have hlength : 28 ≤ bytes.length := by
    rw [hbytes, List.length_append, List.length_append]
    change 28 ≤ 20 + (8 + rest.length)
    omega
  rw [← hbytes]
  unfold decode
  simp only [hfirst]
  change (if 4 = 4 ∧ bytes.getD 9 0 = 17 ∧ 28 ≤ bytes.length then some _ else none) = _
  rw [if_pos ⟨rfl, hkind, hlength⟩, hbytes, ← IP4_bytes32 hdr.daddr]
  rfl

theorem sends_host (s : Net) (buf : Mem) (dest_ip : BitVec 32) (dest_port : BitVec 16) (data : Mem)
    (hlen : len.toNat ≤ 1016) : Sends host s buf dest_ip dest_port data len := by
  rcases udp_send_packet_spec s buf dest_ip dest_port data hlen with
    ⟨-, hk⟩ | ⟨-, check, s', hk, hpacket⟩
  · exact ⟨-1, s, hk, .inl (by decide)⟩
  have hadd : (8 + len).toNat = 8 + len.toNat := toNat_size_add 8 (by omega)
  have hudp : ((8 + len).setWidth 16).toNat = 8 + len.toNat := by
    rw [BitVec.toNat_setWidth, hadd]
    omega
  have htotal : ((20 + (8 + len)).setWidth 16).toNat = 20 + 8 + len.toNat := by
    have hadd' : (20 + (8 + len)).toNat = 20 + (8 + len).toNat := toNat_size_add 20 (by omega)
    rw [BitVec.toNat_setWidth, hadd', hadd]
    omega
  refine ⟨0, s', hk,
    .inr ⟨_, (congrArg (decode host) hpacket).trans (decode_headers host _ _ _ rfl rfl rfl), ?_⟩⟩
  simp only [reread_host]
  refine ⟨htotal, rfl, rfl, rfl, ?_, hudp⟩
  refine List.take_of_length_le ?_
  change (payload data len).length ≤ ((8 + len).setWidth 16).toNat - 8
  rw [hudp, payload, List.length_map, List.length_range, Nat.add_sub_cancel_left]

theorem sends_length {word : BitVec 8 → BitVec 8 → BitVec 16}
    (h : Sends word s buf dest_ip dest_port data len) : len.toNat ≤ 1016 := by
  obtain ⟨ret, s', hk, -⟩ := h
  by_contra hlong
  cases (udp_send_packet_overrun (Nat.lt_of_not_le hlong)).symm.trans hk

/-- But for the order of bytes, packets carry what was given, as long as the payload has room in
`buf`. -/
theorem udp_sends_host_iff (s : Net) (buf : Mem) (dest_ip : BitVec 32) (dest_port : BitVec 16)
    (data : Mem) (len : BitVec 32) :
    Sends host s buf dest_ip dest_port data len ↔ len.toNat ≤ 1016 :=
  ⟨sends_length, sends_host s buf dest_ip dest_port data⟩

theorem not_sends_network (hroom : s.heap_ptr.toNat + 1552 ≤ 4194304) :
    ¬ Sends network s buf dest_ip dest_port data len := by
  intro h
  have hlen := sends_length h
  obtain ⟨ret, s', hk, hret⟩ := h
  rcases udp_send_packet_spec s buf dest_ip dest_port data hlen with
    ⟨hfull, -⟩ | ⟨-, check, s1, hk1, hpacket⟩
  · omega
  cases hk1.symm.trans hk
  rcases hret with hret | ⟨g, hg, hcarries⟩
  · exact absurd hret (by decide)
  rw [hpacket, decode_headers network _ _ _ rfl rfl rfl, Option.some.injEq] at hg
  have hport : reread network 1234 = g.source := by
    rw [← hg]
    rfl
  exact absurd (hport.trans hcarries.source) (by decide)

/-- The call does what it should only where it makes no packet. -/
theorem udp_sends_iff (s : Net) (buf : Mem) (dest_ip : BitVec 32) (dest_port : BitVec 16) (data : Mem)
    (len : BitVec 32) : Sends network s buf dest_ip dest_port data len ↔
      len.toNat ≤ 1016 ∧ 4194304 < s.heap_ptr.toNat + 1552 := by
  constructor
  · intro h
    refine ⟨sends_length h, ?_⟩
    by_contra hroom
    exact not_sends_network (Nat.le_of_not_lt hroom) h
  · rintro ⟨hlen, hfull⟩
    rcases udp_send_packet_spec s buf dest_ip dest_port data hlen with ⟨-, hk⟩ | ⟨hroom, -⟩
    · exact ⟨-1, s, hk, .inl (by decide)⟩
    · omega

def freshNet : Net := ⟨0, fun _ => ⟨fun _ => 0, 0⟩, IP4 10 0 2 15⟩

/-- One byte for port 53: the receiver reads port 13568 and other lengths. A payload of 1017 bytes
leaves `buf`. -/
theorem udp_port_swapped :
    (∃ ret s', udp_send_packet freshNet (fun _ => 0) (IP4 10 0 2 2) 53 (fun _ => 0x41) 1 =
      .ok (ret, s') ∧ ret = 0 ∧ decode network (packet (s'.sk_buffs 0)) =
        some ⟨0x1D00, IP4 10 0 2 2, 0xD204, 0x3500, 0x0900, [0x41]⟩) ∧
    ¬ Sends network freshNet (fun _ => 0) (IP4 10 0 2 2) 53 (fun _ => 0x41) 1 ∧
    udp_send_packet freshNet (fun _ => 0) (IP4 10 0 2 2) 53 (fun _ => 0x41) 1017 =
      .error .overrun := by
  refine ⟨?_, not_sends_network (by decide), udp_send_packet_overrun (by decide)⟩
  have hok :
      (udp_send_packet freshNet (fun _ => 0) (IP4 10 0 2 2) 53 (fun _ => 0x41) 1).toOption.any
        fun r =>
          r.1 = 0 ∧ decode network (packet (r.2.sk_buffs 0)) =
            some ⟨0x1D00, IP4 10 0 2 2, 0xD204, 0x3500, 0x0900, [0x41]⟩ := by
    decide +kernel
  obtain ⟨⟨ret, s'⟩, hk, htest⟩ := exists_of_any hok
  exact ⟨ret, s', hk, of_decide_eq_true htest⟩

end Relis.Udp
