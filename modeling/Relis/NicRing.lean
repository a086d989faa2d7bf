import Mathlib.Data.List.Induction
import Relis.Code.NicRing
import Relis.Lib.Cyclic
import Relis.PageAlloc

/-!
# The receive ring

The descriptors from the one after RDT up to RDH are a queue of packets. The device
adds at RDH, and the driver takes from the other end.
-/

open Relis.Code Relis.Run Relis.Cyclic Relis.PageAlloc

namespace Relis.NicRing

variable {nic : Nic} {ys : List Packet} {lo : Nat} {s : RxState}

def first (nic : Nic) : Nat := slot 32 nic.rdt.toNat 1

/-- The packets `ys` are in the queue, and all but the first `lo` of them have the done bit. -/
structure Ring (nic : Nic) (lo : Nat) (ys : List Packet) : Prop where
  tail : nic.rdt.toNat < 32
  queue : Queue 32 nic.packet (first nic) nic.rdh.toNat ys
  done : ∀ j < 32, nic.done (slot 32 (first nic) j) = true ↔ lo ≤ j ∧ j < ys.length

theorem next_toNat {p : BitVec 32} (h : p.toNat < 32) :
    ((p + 1) % E1000_NUM_RX_DESC).toNat = slot 32 p.toNat 1 := by
  have hsum : (p + 1).toNat = p.toNat + 1 := by
    rw [BitVec.toNat_add, show (1 : BitVec 32).toNat = 1 from rfl]
    omega
  rw [BitVec.toNat_umod, hsum]
  rfl

theorem Ring.next_tail (h : Ring nic lo ys) : (next_tail nic).toNat = first nic := next_toNat h.tail

theorem Ring.room_iff (h : Ring nic lo ys) :
    nic.rdh ≠ nic.rdt ↔ slot 32 nic.rdh.toNat 1 ≠ first nic := by
  have hhead := h.queue.stop_lt
  have htail := h.tail
  rw [Ne, Ne, ← BitVec.toNat_inj]
  unfold first slot
  omega

/-! ## The fields after each step -/

theorem receive_full (h : nic.rdh = nic.rdt) (p : Packet) : nic_receive nic p = nic :=
  if_neg (not_not.mpr h)

theorem receive_done (h : nic.rdh ≠ nic.rdt) (p : Packet) (i : Nat) :
    (nic_receive nic p).done i = (decide (i = nic.rdh.toNat) || nic.done i) := by
  have hbit : ∀ x : BitVec 8, ¬ (x ||| 1#8) &&& 1#8 = 0#8 := by decide
  by_cases hi : i = nic.rdh.toNat
  · simp [nic_receive, h, Nic.done, Nic.set_desc, hi, hbit]
  · simp [nic_receive, h, Nic.done, Nic.set_desc, hi]

theorem receive_packet (h : nic.rdh ≠ nic.rdt) (p : Packet) :
    (nic_receive nic p).packet = Function.update nic.packet nic.rdh.toNat p := by
  funext i
  by_cases hi : i = nic.rdh.toNat
  · simp [nic_receive, h, Nic.packet, Nic.set_desc, hi]
  · simp [nic_receive, h, Nic.packet, Nic.set_desc, hi]

theorem receive_rdh (h : nic.rdh ≠ nic.rdt) (p : Packet) :
    (nic_receive nic p).rdh = (nic.rdh + 1) % E1000_NUM_RX_DESC := by
  simp [nic_receive, h]

theorem receive_accepted (h : nic.rdh ≠ nic.rdt) (p : Packet) :
    (nic_receive nic p).accepted = nic.accepted ++ [p] := by
  simp [nic_receive, h]

theorem receive_rdt (p : Packet) : (nic_receive nic p).rdt = nic.rdt := by
  unfold nic_receive
  split_ifs <;> rfl

theorem receive_reported (p : Packet) : (nic_receive nic p).reported = nic.reported := by
  unfold nic_receive
  split_ifs <;> rfl

theorem clear_done (n : BitVec 32) (i : Nat) :
    (rx_clear nic n).done i = (decide (i ≠ n.toNat) && nic.done i) := by
  by_cases hi : i = n.toNat
  · simp [rx_clear, Nic.done, Nic.set_desc, hi]
  · simp [rx_clear, Nic.done, Nic.set_desc, hi]

theorem clear_packet (n : BitVec 32) : (rx_clear nic n).packet = nic.packet := by
  funext i
  by_cases hi : i = n.toNat
  · simp [rx_clear, Nic.packet, Nic.set_desc, hi]
  · simp [rx_clear, Nic.packet, Nic.set_desc, hi]

/-! ## The queue after each step -/

theorem Ring.receive (h : Ring nic lo ys) (hlo : lo ≤ ys.length) (p : Packet)
    (hroom : nic.rdh ≠ nic.rdt) : Ring (nic_receive nic p) lo (ys ++ [p]) := by
  have hslot := h.room_iff.mp hroom
  have hfirst : first (nic_receive nic p) = first nic := by simp only [first, receive_rdt]
  refine ⟨by rw [receive_rdt]; exact h.tail, ?_, ?_⟩
  · rw [hfirst, receive_packet hroom, receive_rdh hroom, next_toNat h.queue.stop_lt]
    exact h.queue.push hslot p
  · intro j hj
    have hstop : slot 32 (first nic) j = nic.rdh.toNat ↔ j = ys.length := by
      rw [h.queue.stop_eq]
      exact ⟨fun heq => slot_inj hj h.queue.length_lt heq, fun heq => by rw [heq]⟩
    rw [hfirst, receive_done hroom, Bool.or_eq_true, decide_eq_true_iff, hstop, h.done j hj,
      List.length_append, List.length_singleton]
    omega

theorem Ring.clear (h : Ring nic 0 ys) {n : BitVec 32} (hn : n.toNat = first nic) :
    Ring (rx_clear nic n) 1 ys := by
  refine ⟨h.tail, ?_, ?_⟩
  · rw [clear_packet]
    exact h.queue
  · intro j hj
    have hslot : slot 32 (first nic) j = n.toNat ↔ j = 0 := by
      rw [hn]
      constructor
      · intro heq
        exact slot_inj hj (by omega) (heq.trans (slot_zero h.queue.start_lt).symm)
      · rintro rfl
        exact slot_zero h.queue.start_lt
    change (rx_clear nic n).done (slot 32 (first nic) j) = true ↔ _
    rw [clear_done, Bool.and_eq_true, decide_eq_true_iff, Ne, hslot, h.done j hj]
    omega

theorem Ring.release {p : Packet} (h : Ring nic 1 (p :: ys)) {n : BitVec 32}
    (hn : n.toNat = first nic) : Ring (rx_release nic n) 0 ys := by
  have hfirst : first (rx_release nic n) = slot 32 (first nic) 1 := by
    rw [← hn]
    rfl
  refine ⟨?_, ?_, ?_⟩
  · rw [rx_release, hn]
    exact h.queue.start_lt
  · rw [hfirst]
    exact h.queue.pop
  · intro j hj
    have hlen := h.queue.length_lt
    rw [List.length_cons] at hlen
    rw [hfirst, slot_slot]
    change nic.done (slot 32 (first nic) (1 + j)) = true ↔ _
    by_cases hlast : 1 + j = 32
    · -- Once around the ring is the cleared descriptor itself.
      have hround : slot 32 (first nic) (1 + j) = slot 32 (first nic) 0 := by
        unfold slot
        omega
      rw [hround, h.done 0 (by omega)]
      omega
    · rw [h.done (1 + j) (by omega), List.length_cons]
      omega

/-! ## Every run -/

def past : RxPlace → Nat
  | .clear _ | .release _ => 1
  | _ => 0

def cleared : RxPlace → Nat
  | .release _ => 1
  | _ => 0

def Knows (nic : Nic) (ys : List Packet) : RxPlace → Prop
  | .out => True
  | .test n => n.toNat = first nic
  | .report n | .clear n | .release n => n.toNat = first nic ∧ ys ≠ []

structure Sound (s : RxState) (ys : List Packet) : Prop where
  ring : Ring s.nic (cleared s.place) ys
  stream : s.nic.accepted = s.nic.reported ++ ys.drop (past s.place)
  knows : Knows s.nic ys s.place

theorem Knows.append {place : RxPlace} {nic' : Nic} (h : Knows nic ys place)
    (hfirst : first nic' = first nic) (zs : List Packet) : Knows nic' (ys ++ zs) place := by
  cases place with
  | out => trivial
  | test n => exact h.trans hfirst.symm
  | report n => exact ⟨h.1.trans hfirst.symm, fun hnil => h.2 (List.append_eq_nil_iff.mp hnil).1⟩
  | clear n => exact ⟨h.1.trans hfirst.symm, fun hnil => h.2 (List.append_eq_nil_iff.mp hnil).1⟩
  | release n => exact ⟨h.1.trans hfirst.symm, fun hnil => h.2 (List.append_eq_nil_iff.mp hnil).1⟩

theorem Knows.cleared_le {place : RxPlace} (h : Knows nic ys place) :
    cleared place ≤ ys.length ∧ past place ≤ ys.length := by
  have hpos : ys ≠ [] → 1 ≤ ys.length := fun hne => List.length_pos_iff.mpr hne
  cases place with
  | out => simp [cleared, past]
  | test n => simp [cleared, past]
  | report n => simp [cleared, past]
  | clear n => exact ⟨Nat.zero_le _, hpos h.2⟩
  | release n => exact ⟨hpos h.2, hpos h.2⟩

theorem receive_sound (h : Sound s ys) (p : Packet) :
    ∃ zs, Sound { s with nic := nic_receive s.nic p } (ys ++ zs) := by
  obtain ⟨hclear, hpast⟩ := h.knows.cleared_le
  by_cases hroom : s.nic.rdh = s.nic.rdt
  · rw [receive_full hroom]
    exact ⟨[], by rwa [List.append_nil]⟩
  · refine ⟨[p], h.ring.receive hclear p hroom, ?_, h.knows.append (by simp only [first, receive_rdt]) _⟩
    rw [receive_accepted hroom, receive_reported, h.stream, List.drop_append_of_le_length hpast,
      List.append_assoc]

theorem poll_sound (h : Sound s ys) : ∃ zs, Sound (rx_poll_step s) zs := by
  obtain ⟨nic, place⟩ := s
  obtain ⟨hring, hstream, hknows⟩ := h
  cases place with
  | out => exact ⟨ys, hring, hstream, hring.next_tail⟩
  | test n =>
    refine ⟨ys, ?_⟩
    unfold rx_poll_step
    dsimp only
    split_ifs with hdone
    · refine ⟨hring, hstream, hknows, ?_⟩
      rw [show n.toNat = first nic from hknows, ← slot_zero hring.queue.start_lt,
        hring.done 0 (by omega)] at hdone
      exact List.length_pos_iff.mp hdone.2
    · exact ⟨hring, hstream, trivial⟩
  | report n =>
    obtain ⟨hn, hne⟩ := hknows
    obtain ⟨y, ys, rfl⟩ := List.exists_cons_of_ne_nil hne
    refine ⟨y :: ys, ⟨hring.tail, hring.queue, hring.done⟩, ?_, hn, hne⟩
    have hpacket : nic.packet n.toNat = y := by
      rw [hn]
      exact hring.queue.head
    simp only [rx_poll_step, rx_report, hpacket, past, List.drop_one, List.tail_cons, List.append_assoc,
      List.singleton_append]
    exact hstream
  | clear n => exact ⟨ys, hring.clear hknows.1, hstream, hknows.1, hknows.2⟩
  | release n =>
    obtain ⟨hn, hne⟩ := hknows
    obtain ⟨y, ys, rfl⟩ := List.exists_cons_of_ne_nil hne
    exact ⟨ys, hring.release hn, hstream, trivial⟩

theorem step_sound (h : Sound s ys) (e : RxEvent) : ∃ zs, Sound (rx_step s e) zs := by
  cases e with
  | receive p =>
    obtain ⟨zs, h'⟩ := receive_sound h p
    exact ⟨_, h'⟩
  | poll => exact poll_sound h

theorem run_sound (h : Sound ⟨nic, .out⟩ ys) (events : List RxEvent) :
    ∃ zs, Sound (rx_run nic events) zs := by
  induction events using List.reverseRecOn with
  | nil => exact ⟨ys, h⟩
  | append_singleton events e ih =>
    obtain ⟨zs, hzs⟩ := ih
    rw [rx_run, List.foldl_append]
    exact step_sound hzs e

/-! ## From `nic_rx_init` on -/

theorem init_descs {x x' : Nic × Mm} (hdone : ∀ i < 32, x.1.done i = false)
    (h : loop 0 32 rx_init_desc x = .ok x') :
    (∀ i < 32, x'.1.done i = false) ∧ x'.1.accepted = x.1.accepted ∧
      x'.1.reported = x.1.reported := by
  refine loop_inv (fun _ y => (∀ i < 32, y.1.done i = false) ∧ y.1.accepted = x.1.accepted ∧
    y.1.reported = x.1.reported) ?_ ⟨hdone, rfl, rfl⟩ h
  rintro i ⟨y, m⟩ y' - - ⟨hd, ha, hr⟩ hone
  obtain ⟨⟨buf_phys, m'⟩, -, hone⟩ := bind_ok.mp hone
  cases hone
  refine ⟨fun j hj => ?_, ha, hr⟩
  by_cases hji : j = i
  · simp [Nic.done, Nic.set_desc, hji]
  · have := hd j hj
    simpa [Nic.done, Nic.set_desc, hji] using this

theorem ring_empty (hhead : nic.rdh = 0) (htail : nic.rdt = 31)
    (hdone : ∀ i < 32, nic.done i = false) : Ring nic 0 [] := by
  have hfirst : first nic = 0 := by
    rw [first, htail]
    rfl
  refine ⟨by rw [htail]; decide, ?_, ?_⟩
  · rw [hhead, hfirst]
    exact Queue.nil (by omega)
  · intro j _
    simp [hdone _ (slot_lt (by omega))]

theorem init_sound {nic0 : Nic} {m m' : Mm} (h : nic_rx_init nic0 m = .ok (nic, m')) :
    Sound ⟨nic, .out⟩ [] := by
  unfold nic_rx_init at h
  obtain ⟨⟨phys_descs, m1⟩, -, h⟩ := bind_ok.mp h
  obtain ⟨⟨nic1, m2⟩, hloop, h⟩ := bind_ok.mp h
  obtain ⟨hdone, hacc, hrep⟩ := init_descs (fun i _ => by simp [Nic.done, E1000RxDesc.zero]) hloop
  cases h
  refine ⟨ring_empty rfl rfl hdone, ?_, trivial⟩
  exact hacc.trans ((congrArg (· ++ []) hrep).symm)

/-- The cyclic interval from RDT + 1 up to RDH - 1. -/
def Between (nic : Nic) (i : Nat) : Prop :=
  places 32 (first nic) i < places 32 (first nic) nic.rdh.toNat

theorem Ring.between_iff (h : Ring nic lo ys) (i : Nat) :
    Between nic i ↔ places 32 (first nic) i < ys.length := by
  rw [Between, h.queue.places_stop]

theorem Sound.done_iff (h : Sound s ys) {i : Nat} (hi : i < 32) :
    s.nic.done i = true ↔ Between s.nic i ∧ ∀ next, s.place = .release next → next.toNat ≠ i := by
  have hstart := h.ring.queue.start_lt
  have hslot := slot_places hstart hi
  have hdone := h.ring.done (places 32 (first s.nic) i) (places_lt (by omega))
  rw [hslot] at hdone
  rw [h.ring.between_iff, hdone, and_comm]
  apply and_congr_right
  intro _
  cases hplace : s.place with
  | release n =>
    have hn : n.toNat = first s.nic := by
      have hknows := h.knows
      rw [hplace] at hknows
      exact hknows.1
    have hzero : n.toNat = i ↔ places 32 (first s.nic) i = 0 := by
      rw [hn]
      constructor
      · intro heq
        have hself : places 32 (first s.nic) (slot 32 (first s.nic) 0) = 0 :=
          places_slot hstart (by omega)
        rw [slot_zero hstart] at hself
        rw [← heq, hself]
      · intro heq
        rw [heq, slot_zero hstart] at hslot
        exact hslot
    simp only [cleared, RxPlace.release.injEq, forall_eq', Ne, hzero]
    omega
  | _ => simp [cleared]

/-- A packet that is not reported is in a descriptor that the driver does not give back next. -/
theorem Sound.held (h : Sound s ys) {j : Nat} {p : Packet}
    (hp : (ys.drop (past s.place))[j]? = some p) :
    ∃ i < 32, s.nic.packet i = p ∧ s.nic.done i = true ∧ Between s.nic i ∧
      ∀ next, s.place = .release next → next.toNat ≠ i := by
  rw [List.getElem?_drop] at hp
  obtain ⟨hlt, -⟩ := List.getElem?_eq_some_iff.mp hp
  have hlen := h.ring.queue.length_lt
  have hdone := (h.ring.done (past s.place + j) (by omega)).mpr
    ⟨by cases s.place <;> simp [cleared, past], hlt⟩
  have hi : slot 32 (first s.nic) (past s.place + j) < 32 := slot_lt (by omega)
  exact ⟨_, hi, h.ring.queue.cells _ p hp, hdone, (h.done_iff hi).mp hdone⟩

/-- The done descriptors are those from RDT + 1 up to RDH - 1, apart from one that the driver
has cleared. The reported packets are the first accepted ones, and the others are all there. -/
theorem packets_in_order {nic0 : Nic} {m m' : Mm} (hinit : nic_rx_init nic0 m = .ok (nic, m'))
    (events : List RxEvent) :
    (∀ i < 32, (rx_run nic events).nic.done i = true ↔ Between (rx_run nic events).nic i ∧
      ∀ next, (rx_run nic events).place = .release next → next.toNat ≠ i) ∧
    ∃ xs, (rx_run nic events).nic.accepted = (rx_run nic events).nic.reported ++ xs ∧
      ∀ p ∈ xs, ∃ i < 32, (rx_run nic events).nic.packet i = p ∧
        (rx_run nic events).nic.done i = true ∧
        Between (rx_run nic events).nic i ∧ ∀ next, (rx_run nic events).place = .release next →
          next.toNat ≠ i := by
  obtain ⟨ys, hsound⟩ := run_sound (init_sound hinit) events
  refine ⟨fun i hi => hsound.done_iff hi, _, hsound.stream, ?_⟩
  intro p hp
  obtain ⟨j, hj⟩ := List.mem_iff_getElem?.mp hp
  exact hsound.held hj

theorem rx_init_desc_pool {n i : Nat} {x : Nic × Mm} (h : Pool (n + 1) x.2) :
    ∃ x', rx_init_desc i x = .ok x' ∧ Pool n x'.2 := by
  obtain ⟨phys, m, halloc, hpool⟩ := alloc_page_pool h
  exact ⟨_, bind_ok.mpr ⟨_, halloc, rfl⟩, hpool⟩

theorem nic_rx_init_pool {m : Mm} (nic0 : Nic) (h : Pool 33 m) :
    ∃ nic m', nic_rx_init nic0 m = .ok (nic, m') := by
  obtain ⟨phys, m1, halloc, hpool⟩ := alloc_page_pool (n := 32) h
  obtain ⟨x, hloop, -⟩ := loop_total (fun i (x : Nic × Mm) => i ≤ 32 → Pool (32 - i) x.2)
    rx_init_desc 0 32
    ({ nic0 with rx_descs := fun _ => .zero, accepted := [], reported := [] }, m1) (by
      intro i x _ hi hx
      obtain ⟨x', hx', hpool'⟩ := rx_init_desc_pool (n := 32 - (i + 1)) (i := i)
        ((hx (by omega)).le (by omega))
      exact ⟨x', hx', fun _ => hpool'⟩) (fun _ => hpool)
  exact ⟨_, _, bind_ok.mpr ⟨_, halloc, bind_ok.mpr ⟨x, hloop, rfl⟩⟩⟩

def idleNic : Nic := ⟨fun _ => .zero, 0, 0, 0, 0, 0, 0, fun _ => [], [], []⟩

def twoPackets : List RxEvent :=
  [.receive ⟨60, []⟩, .poll, .poll, .receive ⟨64, []⟩, .poll, .poll, .poll]

/-- On 2 MiB of memory, with the kernel in the first half. -/
theorem packets_in_order_small : ∃ nic m', nic_rx_init idleNic
      (start ⟨Pmm.zero, fun _ => 0, 0, none⟩ 2048 0xFFFFFFFF80100000) = .ok (nic, m') ∧
    ∃ xs, (rx_run nic twoPackets).nic.accepted = (rx_run nic twoPackets).nic.reported ++ xs := by
  have hpool : Pool 33 (start ⟨Pmm.zero, fun _ => 0, 0, none⟩ 2048 0xFFFFFFFF80100000) :=
    ⟨pmm_init_inv _ _ _ rfl (by decide), by decide⟩
  obtain ⟨nic, m', hinit⟩ := nic_rx_init_pool idleNic hpool
  obtain ⟨-, xs, hxs, -⟩ := packets_in_order hinit twoPackets
  exact ⟨nic, m', hinit, xs, hxs⟩

/-! ## The call as a whole -/

theorem nic_rx_poll_steps (nic : Nic) :
    (nic.done (next_tail nic).toNat = true →
      rx_run nic (List.replicate 5 .poll) = ⟨nic_rx_poll nic, .out⟩) ∧
    (nic.done (next_tail nic).toNat = false → rx_run nic (List.replicate 2 .poll) =
      ⟨nic_rx_poll nic, .out⟩) := by
  constructor
  · intro h
    simp [rx_run, rx_step, rx_poll_step, nic_rx_poll, List.replicate, h]
  · intro h
    simp [rx_run, rx_step, rx_poll_step, nic_rx_poll, List.replicate, h]

end Relis.NicRing
