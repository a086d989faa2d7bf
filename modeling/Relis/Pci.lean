import Mathlib.Tactic
import Relis.Code.Pci
import Relis.Lib.Traverse

/-!
# The scan of the PCI buses

Every nested scan takes an entry of the table, so there are at most 32 of them. The table
holds the first 32 functions of the depth-first preorder.
-/

open Relis.Code Relis.Run Relis.Traverse

namespace Relis.Pci

variable {inl : DataPort} {scan : BitVec 8 → Code.Pci → Except PciHalt Code.Pci}
  {bus slot func : BitVec 8}
  {s s' : Code.Pci}

/-! ## One function -/

theorem decode_bars_spec {bar_limit fuel i : Nat} {dev : PciDevice} (h : bar_limit ≤ i + fuel) :
    ∃ dev' s', decode_bars inl bar_limit fuel i dev s = .ok (dev', s') ∧
      s'.pci_devices = s.pci_devices ∧
      dev'.bus = dev.bus ∧ dev'.slot = dev.slot ∧ dev'.func = dev.func ∧
      dev'.class_code = dev.class_code ∧ dev'.subclass = dev.subclass := by
  induction fuel generalizing i dev s with
  | zero =>
    rw [decode_bars, if_neg (by omega)]
    exact ⟨dev, s, rfl, rfl, rfl, rfl, rfl, rfl, rfl⟩
  | succ fuel ih =>
    rw [decode_bars]
    dsimp only [pci_read32]
    split_ifs
    · exact ih (by omega)
    · exact ih (by omega)
    · exact ih (by omega)
    · exact ih (by omega)
    · exact ih (by omega)
    · exact ⟨dev, s, rfl, rfl, rfl, rfl, rfl, rfl, rfl⟩

theorem pci_decode_bars_spec (inl : DataPort) (dev : PciDevice) (s : Code.Pci) :
    ∃ dev' s', pci_decode_bars inl dev s = .ok (dev', s') ∧ s'.pci_devices = s.pci_devices ∧
      dev'.bus = dev.bus ∧ dev'.slot = dev.slot ∧ dev'.func = dev.func ∧
      dev'.class_code = dev.class_code ∧ dev'.subclass = dev.subclass := by
  apply decode_bars_spec
  split_ifs <;> decide

def BridgeClass (class_rev : BitVec 32) : Prop :=
  (class_rev >>> 24).setWidth 8 = (0x06 : BitVec 8) ∧ (class_rev >>> 16).setWidth 8 = (0x04 : BitVec 8)

instance (class_rev : BitVec 32) : Decidable (BridgeClass class_rev) :=
  inferInstanceAs (Decidable (_ ∧ _))

def secondaryBus (word : BitVec 32) : BitVec 8 := (word >>> 8).setWidth 8

def address (dev : PciDevice) : BitVec 8 × BitVec 8 × BitVec 8 := (dev.bus, dev.slot, dev.func)

/-- What a call of `pci_scan_function` comes to: the table is full, the function is absent, or it is
added, and if it is a bridge another bus is scanned. -/
inductive Scanned (inl : DataPort) (scan : BitVec 8 → Code.Pci → Except PciHalt Code.Pci)
  (bus slot func : BitVec 8)
    (s : Code.Pci) : Except PciHalt Code.Pci → Prop
  | full : 32 ≤ s.pci_device_count → Scanned inl scan bus slot func s (.ok s)
  | absent (t : Nat) {s' : Code.Pci} : s.pci_device_count < 32 →
      (inl t (pci_addr bus slot func PCI_VENDOR_ID)).setWidth 16 = (0xFFFF : BitVec 16) →
      s'.pci_devices = s.pci_devices → Scanned inl scan bus slot func s (.ok s')
  | leaf (t t1 t2 : Nat) {dev : PciDevice} {s' : Code.Pci} : s.pci_device_count < 32 →
      (inl t (pci_addr bus slot func PCI_VENDOR_ID)).setWidth 16 ≠ (0xFFFF : BitVec 16) →
      s'.pci_devices = s.pci_devices ++ [dev] → address dev = (bus, slot, func) →
      ¬(BridgeClass (inl t1 (pci_addr bus slot func PCI_CLASS_REVISION)) ∧
        secondaryBus (inl t2 (pci_addr bus slot func PCI_SECONDARY_BUS)) ≠ 0) →
      Scanned inl scan bus slot func s (.ok s')
  | bridge (t t1 t2 : Nat) {dev : PciDevice} {s1 : Code.Pci} : s.pci_device_count < 32 →
      (inl t (pci_addr bus slot func PCI_VENDOR_ID)).setWidth 16 ≠ (0xFFFF : BitVec 16) →
      s1.pci_devices = s.pci_devices ++ [dev] → address dev = (bus, slot, func) →
      BridgeClass (inl t1 (pci_addr bus slot func PCI_CLASS_REVISION)) →
      secondaryBus (inl t2 (pci_addr bus slot func PCI_SECONDARY_BUS)) ≠ 0 →
      Scanned inl scan bus slot func s
        (scan (secondaryBus (inl t2 (pci_addr bus slot func PCI_SECONDARY_BUS))) s1)

theorem pci_scan_function_scanned :
    Scanned inl scan bus slot func s (pci_scan_function inl scan bus slot func s) := by
  unfold pci_scan_function
  by_cases hfull : s.pci_device_count ≥ MAX_PCI_DEVICES
  · rw [if_pos hfull]
    exact .full hfull
  rw [if_neg hfull]
  have hroom : s.pci_device_count < 32 := Nat.lt_of_not_ge hfull
  dsimp only [pci_read32, pci_read8]
  by_cases hvid : (inl s.reads (pci_addr bus slot func PCI_VENDOR_ID)).setWidth 16 = (0xFFFF : BitVec 16)
  · rw [if_pos hvid]
    exact .absent s.reads hroom hvid rfl
  rw [if_neg hvid]
  generalize hdev : ({ bus := bus, .. } : PciDevice) = dev0
  generalize hs : (⟨s.pci_devices, _⟩ : Code.Pci) = s0
  obtain ⟨dev, s1, hbars, hdevices, hbus, hslot, hfunc, hclass, hsubclass⟩ :=
    pci_decode_bars_spec inl dev0 s0
  rw [hbars]
  rw [← hdev] at hbus hslot hfunc hclass hsubclass
  rw [← hs] at hdevices
  have haddress : address dev = (bus, slot, func) := by rw [address, hbus, hslot, hfunc]
  show Scanned inl scan bus slot func s (if dev.class_code = 0x06 ∧ dev.subclass = 0x04 then _ else _)
  rw [hclass, hsubclass]
  have hadded : s1.pci_devices ++ [dev] = s.pci_devices ++ [dev] := by rw [hdevices]
  split_ifs with hbridge hsec
  · exact .bridge s.reads (s.reads + 1) s1.reads hroom hvid hadded haddress hbridge hsec
  · exact .leaf s.reads (s.reads + 1) s1.reads hroom hvid hadded haddress fun h => hsec h.2
  · exact .leaf s.reads (s.reads + 1) s1.reads hroom hvid hadded haddress fun h => hbridge h.1

/-! ## Any hardware -/

def Grows (s s' : Code.Pci) : Prop :=
  s.pci_device_count ≤ s'.pci_device_count ∧ s'.pci_device_count ≤ 32

theorem count_of_same (h : s'.pci_devices = s.pci_devices) :
    s'.pci_device_count = s.pci_device_count :=
  congrArg List.length h

theorem count_of_added {dev : PciDevice} (h : s'.pci_devices = s.pci_devices ++ [dev]) :
    s'.pci_device_count = s.pci_device_count + 1 := by
  rw [Code.Pci.pci_device_count, h, List.length_append]
  rfl

def Returns (scan : BitVec 8 → Code.Pci → Except PciHalt Code.Pci) (n : Nat) : Prop :=
  ∀ bus s, n ≤ s.pci_device_count → s.pci_device_count ≤ 32 → ∃ s', scan bus s = .ok s' ∧ Grows s s'

variable {n : Nat}

theorem pci_scan_function_returns (inl : DataPort) (bus slot func : BitVec 8)
    (hscan : Returns scan (n + 1)) (hn : n ≤ s.pci_device_count) (hs : s.pci_device_count ≤ 32) :
    ∃ s', pci_scan_function inl scan bus slot func s = .ok s' ∧ Grows s s' := by
  generalize hr : pci_scan_function inl scan bus slot func s = r
  have h : Scanned inl scan bus slot func s r := hr ▸ pci_scan_function_scanned
  cases h with
  | full => exact ⟨s, rfl, le_rfl, hs⟩
  | absent t hroom hvid hsame =>
    have hcount := count_of_same hsame
    exact ⟨_, rfl, hcount.ge, by omega⟩
  | leaf t t1 t2 hroom hvid hadded =>
    have hcount := count_of_added hadded
    exact ⟨_, rfl, by omega, by omega⟩
  | @bridge t t1 t2 dev s1 hroom hvid hadded =>
    have hcount := count_of_added hadded
    obtain ⟨s', hs', hle, hle'⟩ := hscan _ s1 (by omega) (by omega)
    exact ⟨s', hs', by omega, hle'⟩

theorem pci_scan_slot_returns (inl : DataPort) (bus slot : BitVec 8) (hscan : Returns scan (n + 1))
    (hn : n ≤ s.pci_device_count) (hs : s.pci_device_count ≤ 32) :
    ∃ s', pci_scan_slot inl scan bus slot s = .ok s' ∧ Grows s s' := by
  have hread : ∀ reads, Grows s { s with reads := reads } := fun _ => ⟨le_rfl, hs⟩
  unfold pci_scan_slot
  dsimp only [pci_read32, pci_read8]
  split_ifs
  · exact ⟨_, rfl, hread _⟩
  · apply loop_total fun _ => Grows s
    · intro func s1 _ _ h1
      split_ifs
      · obtain ⟨s2, hs2, hle, hle'⟩ := pci_scan_function_returns inl bus slot (BitVec.ofNat 8 func) hscan
          (s := { s1 with reads := s1.reads + 1 }) (hn.trans h1.1) h1.2
        exact ⟨s2, hs2, h1.1.trans hle, hle'⟩
      · exact ⟨_, rfl, h1⟩
    · exact hread _
  · exact pci_scan_function_returns inl bus slot 0 hscan hn hs

theorem pci_scan_bus_returns (inl : DataPort) {fuel : Nat} (h : 32 < n + fuel) :
    Returns (pci_scan_bus inl fuel) n := by
  induction fuel generalizing n with
  | zero =>
    intro bus s hn hs
    omega
  | succ fuel ih =>
    intro bus s hn hs
    apply loop_total fun _ => Grows s
    · intro slot s1 _ _ h1
      obtain ⟨s2, hs2, hle, hle'⟩ := pci_scan_slot_returns inl bus (BitVec.ofNat 8 slot)
        (ih (by omega)) (hn.trans h1.1) h1.2
      exact ⟨s2, hs2, h1.1.trans hle, hle'⟩
    · exact ⟨le_rfl, hs⟩

/-- For any hardware the scan returns with 33 nested calls, those for bus 0 and for 32 bridges,
and the table is not overrun. -/
theorem pci_init_returns (inl : DataPort) (s : Code.Pci) :
    (∃ s', pci_init inl 33 s = .ok s' ∧ s'.pci_device_count ≤ MAX_PCI_DEVICES) ∧
      ∀ k ≤ MAX_PCI_DEVICES, ∀ bus s1, s1.pci_device_count = k →
        ∃ s2, pci_scan_bus inl (33 - k) bus s1 = .ok s2 ∧ k ≤ s2.pci_device_count ∧
          s2.pci_device_count ≤ MAX_PCI_DEVICES := by
  constructor
  · obtain ⟨s', hs', -, hle⟩ := pci_scan_bus_returns inl (show 32 < 0 + 33 by decide) 0
      { s with pci_devices := [] }
      (Nat.zero_le _) (Nat.zero_le _)
    exact ⟨s', hs', hle⟩
  · rintro k hk bus s1 rfl
    have hk : s1.pci_device_count ≤ 32 := hk
    exact pci_scan_bus_returns inl (by omega) bus s1 le_rfl hk

/-! ## A configuration space that does not change -/

abbrev Address : Type := BitVec 8 × BitVec 8 × BitVec 8

abbrev ConfigSpace : Type := Address → BitVec 8 → BitVec 32

def dataPort (cfg : ConfigSpace) : DataPort := fun _ addr =>
  cfg (addr.extractLsb' 16 8, (addr.extractLsb' 11 5).setWidth 8, (addr.extractLsb' 8 3).setWidth 8)
    (addr.extractLsb' 0 8)

namespace ConfigSpace

variable (cfg : ConfigSpace)

def Present (x : Address) : Prop := (cfg x 0x00).setWidth 16 ≠ (0xFFFF : BitVec 16)

def MultiFunction (bus slot : BitVec 8) : Prop :=
  (cfg (bus, slot, 0) 0x0C >>> 16).setWidth 8 &&& 0x80#8 ≠ 0

/-- Functions 1 to 7 count if the identification register of function 0 is not all ones and if it is
flagged multi-function. -/
def Counts (x : Address) : Prop :=
  cfg.Present x ∧ (x.2.2 = 0 ∨ cfg (x.1, x.2.1, 0) 0x00 ≠ 0xFFFFFFFF ∧ cfg.MultiFunction x.1 x.2.1)

instance : DecidablePred cfg.Present := fun _ => inferInstanceAs (Decidable (_ ≠ _))

instance (bus slot : BitVec 8) : Decidable (cfg.MultiFunction bus slot) :=
  inferInstanceAs (Decidable (_ ≠ _))

instance : DecidablePred cfg.Counts := fun _ => inferInstanceAs (Decidable (_ ∧ _))

def IsBridge (x : Address) : Prop := BridgeClass (cfg x 0x08)

def secondary (x : Address) : BitVec 8 := secondaryBus (cfg x 0x18)

def slotFunctions (bus slot : BitVec 8) : List Address :=
  ((List.range 8).map fun func => (bus, slot, BitVec.ofNat 8 func)).filter cfg.Counts

def functions (bus : BitVec 8) : List Address :=
  (List.range 32).flatMap fun slot => cfg.slotFunctions bus (BitVec.ofNat 8 slot)

def behind (x : Address) : Option (BitVec 8) :=
  if BridgeClass (cfg x 0x08) ∧ cfg.secondary x ≠ 0 then some (cfg.secondary x) else none

/-- The function is on bus 0 or behind a bridge that is. -/
def Reached (x : Address) : Prop := Reachable cfg.functions cfg.behind 0 x

end ConfigSpace

variable {cfg : ConfigSpace} {x : Address}

/-! ### The registers -/

theorem exists_narrow {m : Nat} {v : BitVec 8} (h : v.toNat < 2 ^ m) :
    ∃ w : BitVec m, v = w.setWidth 8 := by
  refine ⟨v.setWidth m, ?_⟩
  rw [← BitVec.toNat_inj, BitVec.toNat_setWidth, BitVec.toNat_setWidth, Nat.mod_eq_of_lt h,
    Nat.mod_eq_of_lt v.isLt]

theorem pci_addr_fields (bus off : BitVec 8) (slot : BitVec 5) (func : BitVec 3) :
    (pci_addr bus (slot.setWidth 8) (func.setWidth 8) off).extractLsb' 16 8 = bus ∧
    (pci_addr bus (slot.setWidth 8) (func.setWidth 8) off).extractLsb' 11 5 = slot ∧
    (pci_addr bus (slot.setWidth 8) (func.setWidth 8) off).extractLsb' 8 3 = func ∧
    (pci_addr bus (slot.setWidth 8) (func.setWidth 8) off).extractLsb' 0 8 = off &&& 0xFC#8 := by
  refine ⟨?_, ?_, ?_, ?_⟩ <;>
  · ext i hi
    interval_cases i <;> simp [pci_addr]

theorem dataPort_pci_addr (t : Nat) (off : BitVec 8) (hslot : slot.toNat < 32)
    (hfunc : func.toNat < 8) :
    dataPort cfg t (pci_addr bus slot func off) = cfg (bus, slot, func) (off &&& 0xFC#8) := by
  obtain ⟨slot, rfl⟩ := exists_narrow (m := 5) hslot
  obtain ⟨func, rfl⟩ := exists_narrow (m := 3) hfunc
  obtain ⟨hbus, hslot, hfunc, hoff⟩ := pci_addr_fields bus off slot func
  rw [dataPort, hbus, hslot, hfunc, hoff]

/-! ### The table -/

def addresses (s : Code.Pci) : List Address := s.pci_devices.map address

theorem length_addresses (s : Code.Pci) : (addresses s).length = s.pci_device_count :=
  List.length_map ..

theorem addresses_of_added {dev : PciDevice} (h : s'.pci_devices = s.pci_devices ++ [dev])
    (hdev : address dev = x) : addresses s' = addresses s ++ [x] := by
  rw [addresses, h, List.map_append, List.map_singleton, hdev]
  rfl

/-- The scan adds to the table what a traversal of the bus adds to a list. -/
def Traverses (cfg : ConfigSpace) (scan : BitVec 8 → Code.Pci → Except PciHalt Code.Pci) : Prop :=
  ∀ bus s s', scan bus s = .ok s' →
    Fills cfg.functions cfg.behind 32 (cfg.functions bus) (addresses s) (addresses s')

theorem pci_scan_function_fills (hscan : Traverses cfg scan) (hslot : slot.toNat < 32)
    (hfunc : func.toNat < 8) (h : pci_scan_function (dataPort cfg) scan bus slot func s = .ok s') :
    Fills cfg.functions cfg.behind 32 ([(bus, slot, func)].filter cfg.Present) (addresses s)
      (addresses s') := by
  have hport : ∀ t off, dataPort cfg t (pci_addr bus slot func off) =
      cfg (bus, slot, func) (off &&& 0xFC#8) := fun t off => dataPort_pci_addr t off hslot hfunc
  have hscanned := @pci_scan_function_scanned (dataPort cfg) scan bus slot func s
  generalize hr : pci_scan_function (dataPort cfg) scan bus slot func s = r at h hscanned
  have hlen := length_addresses s
  have hfilter : ∀ l, cfg.Present (bus, slot, func) →
      Fills cfg.functions cfg.behind 32 [(bus, slot, func)] (addresses s) l →
      Fills cfg.functions cfg.behind 32 ([(bus, slot, func)].filter cfg.Present) (addresses s) l := by
    intro l hpresent hfills
    rwa [List.filter_cons_of_pos (by simpa using hpresent)]
  have hskip : ¬cfg.Present (bus, slot, func) →
      Fills cfg.functions cfg.behind 32 ([(bus, slot, func)].filter cfg.Present) (addresses s)
        (addresses s) := by
    intro hpresent
    rw [List.filter_cons_of_neg (by simpa using hpresent)]
    exact .nil
  cases hscanned with
  | full hfull =>
    cases h
    by_cases hpresent : cfg.Present (bus, slot, func)
    · exact hfilter _ hpresent (.full (by omega) .nil)
    · exact hskip hpresent
  | absent t hroom hvid hsame =>
    cases h
    rw [hport] at hvid
    rw [show addresses s' = addresses s from congrArg (List.map address) hsame]
    exact hskip fun hpresent => hpresent hvid
  | leaf t t1 t2 hroom hvid hadded haddress hnot =>
    cases h
    rw [hport] at hvid
    rw [hport, hport] at hnot
    rw [addresses_of_added hadded haddress]
    exact hfilter _ hvid (.leaf (by omega) (if_neg hnot) .nil)
  | bridge t t1 t2 hroom hvid hadded haddress hbridge hsec =>
    rw [hport] at hvid hbridge hsec h
    have hfills := hscan _ _ _ h
    rw [addresses_of_added hadded haddress] at hfills
    exact hfilter _ hvid (.node (by omega) (if_pos ⟨hbridge, hsec⟩) hfills .nil)

theorem filter_singleton_congr {p q : Address → Prop} [DecidablePred p] [DecidablePred q]
    (h : p x ↔ q x) : [x].filter p = [x].filter q := by
  apply List.filter_congr
  intro y hy
  rw [List.mem_singleton.mp hy, decide_eq_decide, h]

theorem slotFunctions_of_absent (hid : cfg (bus, slot, 0) 0x00 = 0xFFFFFFFF) :
    cfg.slotFunctions bus slot = [] := by
  apply List.filter_eq_nil_iff.mpr
  intro x hx
  obtain ⟨func, -, rfl⟩ := List.mem_map.mp hx
  rw [decide_eq_true_iff]
  rintro ⟨hpresent, hfunc | ⟨hnot, -⟩⟩
  · dsimp only at hfunc
    rw [ConfigSpace.Present, hfunc, hid] at hpresent
    exact hpresent rfl
  · exact hnot hid

theorem slotFunctions_of_single (hmulti : ¬cfg.MultiFunction bus slot) :
    cfg.slotFunctions bus slot = [(bus, slot, 0)].filter cfg.Present := by
  have hrest : ∀ func ∈ [1, 2, 3, 4, 5, 6, 7], ¬cfg.Counts (bus, slot, BitVec.ofNat 8 func) := by
    rintro func hfunc ⟨-, hzero | ⟨-, hmulti'⟩⟩
    · have hne : ∀ func ∈ [1, 2, 3, 4, 5, 6, 7], BitVec.ofNat 8 func ≠ 0 := by decide
      exact hne func hfunc hzero
    · exact hmulti hmulti'
  have hfirst : cfg.Counts (bus, slot, 0) ↔ cfg.Present (bus, slot, 0) :=
    ⟨And.left, fun h => ⟨h, .inl rfl⟩⟩
  show ((0 :: [1, 2, 3, 4, 5, 6, 7]).map fun func => (bus, slot, BitVec.ofNat 8 func)).filter _ = _
  have hnil :
      (([1, 2, 3, 4, 5, 6, 7].map fun func => (bus, slot, BitVec.ofNat 8 func)).filter cfg.Counts) =
      [] := by
    apply List.filter_eq_nil_iff.mpr
    intro x hx
    obtain ⟨func, hfunc, rfl⟩ := List.mem_map.mp hx
    simpa using hrest func hfunc
  rw [List.map_cons, ← List.singleton_append, List.filter_append, hnil, List.append_nil]
  exact filter_singleton_congr hfirst

theorem pci_scan_slot_fills (hscan : Traverses cfg scan) (hslot : slot.toNat < 32)
    (h : pci_scan_slot (dataPort cfg) scan bus slot s = .ok s') :
    Fills cfg.functions cfg.behind 32 (cfg.slotFunctions bus slot) (addresses s) (addresses s') := by
  have hport : ∀ func t off, func.toNat < 8 →
      dataPort cfg t (pci_addr bus slot func off) = cfg (bus, slot, func) (off &&& 0xFC#8) :=
    fun func t off hfunc => dataPort_pci_addr t off hslot hfunc
  unfold pci_scan_slot at h
  dsimp only [pci_read32, pci_read8] at h
  rw [hport 0 _ _ (by decide), hport 0 _ _ (by decide)] at h
  split_ifs at h with hid hmulti
  · cases h
    rw [slotFunctions_of_absent hid]
    exact .nil
  · refine loop_inv (fun i s1 => Fills cfg.functions cfg.behind 32
      (((List.range i).map fun func => (bus, slot, BitVec.ofNat 8 func)).filter cfg.Counts)
        (addresses s) (addresses s1))
      ?_ .nil h
    intro i s1 s2 _ hi hfills hfunc
    have hlt : (BitVec.ofNat 8 i).toNat < 8 := by
      rw [BitVec.toNat_ofNat]
      omega
    have hcounts : cfg.Counts (bus, slot, BitVec.ofNat 8 i) ↔
        cfg.Present (bus, slot, BitVec.ofNat 8 i) := ⟨And.left, fun h => ⟨h, .inr ⟨hid, hmulti⟩⟩⟩
    rw [List.range_succ, List.map_append, List.filter_append]
    refine hfills.append ?_
    rw [List.map_singleton, filter_singleton_congr hcounts]
    split_ifs at hfunc with hother
    · have hone := pci_scan_function_fills hscan hslot hlt hfunc
      exact hone
    · cases hfunc
      rw [hport _ _ _ hlt] at hother
      have hid : cfg (bus, slot, BitVec.ofNat 8 i) 0x00 = 0xFFFFFFFF := not_not.mp hother
      have hpresent : ¬cfg.Present (bus, slot, BitVec.ofNat 8 i) := by
        rw [ConfigSpace.Present, hid]
        exact fun h => h rfl
      rw [List.filter_cons_of_neg (by simpa using hpresent)]
      exact .nil
  · rw [slotFunctions_of_single hmulti]
    have hone := pci_scan_function_fills hscan hslot (show (0 : BitVec 8).toNat < 8 by decide) h
    exact hone

theorem pci_scan_bus_traverses (cfg : ConfigSpace) (fuel : Nat) :
    Traverses cfg (pci_scan_bus (dataPort cfg) fuel) := by
  induction fuel with
  | zero =>
    intro bus s s' h
    cases h
  | succ fuel ih =>
    intro bus s s' h
    refine loop_inv (fun i s1 => Fills cfg.functions cfg.behind 32
      ((List.range i).flatMap fun slot => cfg.slotFunctions bus (BitVec.ofNat 8 slot)) (addresses s)
        (addresses s1))
      ?_ .nil h
    intro i s1 s2 _ hi hfills hslot
    rw [List.range_succ, List.flatMap_append, List.flatMap_singleton]
    refine hfills.append (pci_scan_slot_fills ih ?_ hslot)
    rw [BitVec.toNat_ofNat]
    omega

/-! ### The tree of buses -/

theorem mem_slotFunctions (h : x ∈ cfg.slotFunctions bus slot) : x.1 = bus ∧ x.2.1 = slot := by
  obtain ⟨func, -, rfl⟩ := List.mem_map.mp (List.mem_of_mem_filter h)
  exact ⟨rfl, rfl⟩

theorem mem_functions (h : x ∈ cfg.functions bus) : x.1 = bus := by
  obtain ⟨slot, -, hx⟩ := List.mem_flatMap.mp h
  exact (mem_slotFunctions hx).1

theorem ofNat_inj {i j : Nat} (hi : i < 256) (hj : j < 256)
    (h : BitVec.ofNat 8 i = BitVec.ofNat 8 j) : i = j := by
  have := congrArg BitVec.toNat h
  rw [BitVec.toNat_ofNat, BitVec.toNat_ofNat] at this
  omega

theorem functions_nodup (cfg : ConfigSpace) (bus : BitVec 8) : (cfg.functions bus).Nodup := by
  apply List.nodup_flatMap.mpr
  constructor
  · intro slot _
    apply List.Nodup.filter
    apply List.nodup_range.map_on
    intro i hi j hj heq
    rw [List.mem_range] at hi hj
    exact ofNat_inj (by omega) (by omega) (Prod.ext_iff.mp (Prod.ext_iff.mp heq).2).2
  · apply List.nodup_range.pairwise_of_forall_ne
    intro i hi j hj hne x hxi hxj
    rw [List.mem_range] at hi hj
    exact hne (ofNat_inj (by omega) (by omega)
      ((mem_slotFunctions hxi).2.symm.trans (mem_slotFunctions hxj).2))

theorem behind_eq_some :
    cfg.behind x = some bus ↔ cfg.IsBridge x ∧ cfg.secondary x ≠ 0 ∧ cfg.secondary x = bus := by
  unfold ConfigSpace.behind ConfigSpace.IsBridge
  rw [Option.ite_none_right_eq_some, Option.some_inj, and_assoc]

theorem tree_of_distinct
    (hdistinct : ∀ x y, cfg.Reached x → cfg.Reached y → cfg.IsBridge x → cfg.IsBridge y →
      cfg.secondary x ≠ 0 → cfg.secondary x = cfg.secondary y → x = y) :
    Tree cfg.functions cfg.behind 0 where
  nodup := functions_nodup cfg
  place x b c hb hc := (mem_functions hb).symm.trans (mem_functions hc)
  apart x y b hx hy hxb hyb := by
    obtain ⟨hbx, hne, hsx⟩ := behind_eq_some.mp hxb
    obtain ⟨hby, -, hsy⟩ := behind_eq_some.mp hyb
    exact hdistinct x y hx hy hbx hby hne (hsx.trans hsy.symm)
  root x _ h := by
    obtain ⟨-, hne, heq⟩ := behind_eq_some.mp h
    exact hne heq

/-- If the bridges lead to different buses, the table is the beginning of the preorder of the
functions. -/
theorem pci_init_preorder (cfg : ConfigSpace) (s : Code.Pci)
    (hdistinct : ∀ x y, cfg.Reached x → cfg.Reached y → cfg.IsBridge x → cfg.IsBridge y →
      cfg.secondary x ≠ 0 → cfg.secondary x = cfg.secondary y → x = y) :
    ∃ l s', PreorderOf cfg.functions cfg.behind (cfg.functions 0) l ∧ l.Nodup ∧
      (∀ x, x ∈ l ↔ cfg.Reached x) ∧
      pci_init (dataPort cfg) 33 s = .ok s' ∧ s'.pci_devices.map address = l.take 32 := by
  have tree := tree_of_distinct hdistinct
  have : Finite (BitVec 8) := Finite.of_injective BitVec.toFin fun _ _ => BitVec.toFin_inj.mp
  obtain ⟨l, hl⟩ := tree.exists_preorder .refl
  obtain ⟨s', hs', -⟩ := pci_scan_bus_returns (dataPort cfg) (show 32 < 0 + 33 by decide) 0
    { s with pci_devices := [] } (Nat.zero_le _) (Nat.zero_le _)
  refine ⟨l, s', hl, tree.preorder_nodup hl, fun x => hl.mem_iff_reachable, hs', ?_⟩
  exact (pci_scan_bus_traverses cfg 33 0 _ _ hs').eq_take hl

def bridged : ConfigSpace := fun x off =>
  if x = (0, 0, 0) then (if off = 0x00 then 0x12378086 else if off = 0x08 then 0x06040000 else
    if off = 0x18 then 0x00000100 else 0)
  else if x = (1, 0, 0) then (if off = 0x00 then 0x100E8086 else 0)
  else 0xFFFFFFFF

theorem pci_init_bridged :
    ∃ l s', PreorderOf bridged.functions bridged.behind (bridged.functions 0) l ∧
    pci_init (dataPort bridged) 33 ⟨[], 0⟩ = .ok s' ∧ s'.pci_devices.map address = l.take 32 ∧
    s'.pci_devices.map address = [(0, 0, 0), (1, 0, 0)] := by
  have hbridge : ∀ x, bridged.IsBridge x → x = (0, 0, 0) := by
    intro x hx
    by_contra hne
    unfold ConfigSpace.IsBridge bridged at hx
    rw [if_neg hne] at hx
    revert hx
    split_ifs <;> decide
  obtain ⟨l, s', hl, -, -, hs', htable⟩ := pci_init_preorder bridged ⟨[], 0⟩
    (fun x y _ _ hx hy _ _ => (hbridge x hx).trans (hbridge y hy).symm)
  have hlisted : (pci_init (dataPort bridged) 33 ⟨[], 0⟩).map (·.pci_devices.map address) =
      .ok [(0, 0, 0), (1, 0, 0)] := rfl
  rw [hs'] at hlisted
  exact ⟨l, s', hl, hs', htable, Except.ok.inj hlisted⟩

/-- Function 0 has no vendor, but its identification register is not all ones and it is flagged. -/
def halfAbsent : ConfigSpace := fun x off =>
  if x = (0, 0, 0) then (if off = 0x00 then 0x0000FFFF else if off = 0x0C then 0x00800000 else 0)
  else if x = (0, 0, 1) then (if off = 0x00 then 0x100E8086 else 0)
  else 0xFFFFFFFF

/-- Function 1 is listed, although there is no function 0. -/
theorem pci_init_halfAbsent : (∀ x, ¬halfAbsent.IsBridge x) ∧ ¬halfAbsent.Present (0, 0, 0) ∧
    ∃ s', pci_init (dataPort halfAbsent) 33 ⟨[], 0⟩ = .ok s' ∧
      s'.pci_devices.map address = [(0, 0, 1)] := by
  refine ⟨fun x => ?_, by decide, _, rfl, rfl⟩
  unfold ConfigSpace.IsBridge halfAbsent
  split_ifs <;> decide

end Relis.Pci
