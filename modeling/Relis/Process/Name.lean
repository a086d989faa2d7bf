import Relis.Process.Execve
import Relis.Process.Spaces

/-!
# The name of a program

`vfs_open` reads the path in the memory of the caller, and `kstrcpy` reads it again in the
new space, up to the first zero there. Nothing keeps it inside `name`.
-/

open Relis.Bytes Relis.Run Relis.Code Relis.Slab Relis.PageAlloc Relis.Paging

namespace Relis.Process

variable {k k' : Kernel} {v r path : BitVec 64} {b : BitVec 8} {i j n fuel : Nat}

/-! ## The call with a pointer -/

/-- A load in the kernel. Where no page is, the handler runs and the load is tried again. -/
def load_byte (k : Kernel) (v : BitVec 64) : Except Halt (BitVec 8 × Kernel) :=
  match byteAt k.mm.mem (pte_addr k.mm.cr3) v with
  | some b => .ok (b, k)
  | none => do
    let k ← handle_page_fault k v 0
    match byteAt k.mm.mem (pte_addr k.mm.cr3) v with
    | some b => return (b, k)
    | none => .error .page_fault

/-- The string that `vfs_open` reads. There are `fuel` bytes up to the end of the user half. -/
def read_string : Nat → Kernel → BitVec 64 → Except Halt (List (BitVec 8) × Kernel)
  | 0, _, _ => .error .page_fault
  | fuel + 1, k, v => do
    let (b, k) ← load_byte k v
    if b = 0 then return ([], k)
    let (string, k) ← read_string fuel k (v + 1)
    return (b :: string, k)

/-- The `task_struct` while `kstrcpy` writes to it: `name`, the fields up to `stack_end`, and what
goes to the bytes behind them. -/
structure Copy where
  kernel : Kernel
  name : Mem
  spill : List (BitVec 8)

def Copy.store (c : Copy) (i : Nat) (b : BitVec 8) : Copy :=
  if i < 32 then { c with name := Function.update c.name i b }
  else if i < 72 then
    { c with
      kernel := c.kernel.update_task c.kernel.current_task fun t =>
        t.of_bytes (Function.update t.bytes (16 + i) b) }
  else { c with spill := c.spill ++ [b] }

/-- `kstrcpy(current_task->name, path)`, at the byte `i`. -/
def kstrcpy_name : Nat → Nat → BitVec 64 → Copy → Except Halt Copy
  | 0, _, _, _ => .error .page_fault
  | fuel + 1, i, src, c => do
    let (b, k) ← load_byte c.kernel src
    let c := { c with kernel := k }.store i b
    if b = 0 then return c
    kstrcpy_name fuel (i + 1) (src + 1) c

/-- `sys_execve`, where `vfs` says what `vfs_open` and `vfs_read` find for a path, and `name` is the
field as it was. -/
def sys_execve_at (k : Kernel) (regs : Registers) (vfs : List (BitVec 8) → PathFile)
    (path : BitVec 64) (name : Mem) : Except Halt (Int × Registers × Copy) := do
  let (string, k) ← read_string (2 ^ 47 - path.toNat) k path
  match vfs string with
  | .missing => return (-1, regs, ⟨k, name, []⟩)
  | .unreadable =>
    let (_, k) ← kmalloc_object k sizeof_file
    return (-1, regs, ⟨{ k with heap_ptr := (kmalloc k.heap_ptr 4096).2 }, name, []⟩)
  | .readable elf_data =>
    let (_, k) ← kmalloc_object k sizeof_file
    let (_, k) ← kmalloc_object k 4096
    let hdr := Elf64Hdr.at elf_data
    if hdr.e_magic ≠ ELF_MAGIC then return (-1, regs, ⟨k, name, []⟩)
    let (new_cr3, mm) ← load_image k.mm elf_data
    let k := { k with mm := mm }
    let k := k.update_task k.current_task fun t => t.set_image new_cr3
    let c ← kstrcpy_name (2 ^ 47 - path.toNat) 0 path ⟨k, name, []⟩
    return (0, { regs with
      rip := hdr.e_entry, rsp := user_stack - 16, cs := 0x23, ss := 0x1B, rflags := 0x202 }, c)

/-! ## What it is for -/

def StringAt (byte : BitVec 64 → Option (BitVec 8)) (v : BitVec 64) (string : List (BitVec 8)) :
    Prop :=
  ∀ i ≤ string.length, byte (v + BitVec.ofNat 64 i) = some (string.getD i 0)

/-- The name is the string, as far as it fits with a zero, and no field but the three for the new
space differs. -/
structure Named (t : Task) (string : List (BitVec 8)) (c : Copy) : Prop where
  name : ∀ i ≤ (string.take 31).length, c.name i = (string.take 31).getD i 0
  fields : ∃ cr3 stack_start stack_end, c.kernel.task c.kernel.current_task =
    { t with cr3 := cr3, stack_start := stack_start, stack_end := stack_end }
  spill : c.spill = []

/-- What the new space has at `v`: the image, and pages of zeros for the stack where the image is
not. -/
def newByte (contents : Contents) (v : BitVec 64) : Option (BitVec 8) :=
  match contents (pageNumber v) with
  | some bytes => some (bytes (v.toNat % 4096))
  | none => if user_stack - 4 * 4096 ≤ v ∧ v < user_stack then some 0 else none

/-! ## One byte -/

theorem load_byte_some (h : byteAt k.mm.mem (pte_addr k.mm.cr3) v = some b) :
    load_byte k v = .ok (b, k) := by
  unfold load_byte
  rw [h]

theorem add_next (v : BitVec 64) (i : Nat) :
    v + 1 + BitVec.ofNat 64 i = v + BitVec.ofNat 64 (i + 1) := by
  rw [BitVec.add_assoc, BitVec.add_comm 1, BitVec.ofNat_add]
  rfl

section

variable {byte : BitVec 64 → Option (BitVec 8)} {string : List (BitVec 8)}

theorem StringAt.head (h : StringAt byte v string) : byte v = some (string.getD 0 0) := by
  simpa using h 0 (Nat.zero_le _)

theorem StringAt.tail (h : StringAt byte v (b :: string)) : StringAt byte (v + 1) string := by
  intro i hi
  rw [add_next, h (i + 1) (by simpa using hi), List.getD_cons_succ]

end

theorem read_string_at {string : List (BitVec 8)}
    (h : StringAt (byteAt k.mm.mem (pte_addr k.mm.cr3)) v string) (hnul : 0 ∉ string)
    (hfuel : string.length < fuel) : read_string fuel k v = .ok (string, k) := by
  induction string generalizing v fuel with
  | nil =>
    obtain ⟨fuel, rfl⟩ := Nat.exists_eq_add_one_of_ne_zero (by omega : fuel ≠ 0)
    unfold read_string
    rw [load_byte_some h.head]
    rfl
  | cons b string ih =>
    obtain ⟨fuel, rfl⟩ := Nat.exists_eq_add_one_of_ne_zero (by omega : fuel ≠ 0)
    rw [List.mem_cons, not_or] at hnul
    rw [List.length_cons] at hfuel
    unfold read_string
    rw [load_byte_some h.head]
    refine bind_ok.mpr ⟨_, rfl, ?_⟩
    dsimp only
    rw [List.getD_cons_zero, if_neg (Ne.symm hnul.1), ih h.tail hnul.2 (by omega)]
    rfl

/-! ## The copy in the new space -/

/-- The new space shows the image, and the pages of the stack that were asked for. -/
structure Showing (contents : Contents) (r : BitVec 64) (k : Kernel) : Prop where
  cr3 : pte_addr k.mm.cr3 = r
  shown : ∃ shown, Shows UserPath k.mm r shown ∧ ∀ v, v.toNat < 2 ^ 47 →
    shown (pageNumber v) = contents (pageNumber v) ∨ contents (pageNumber v) = none ∧
    shown (pageNumber v) = some (fun _ => 0) ∧
      user_stack - 4 * 4096 ≤ v ∧ v < user_stack
  stack_start : (k.task k.current_task).stack_start = user_stack - 4 * 4096
  stack_end : (k.task k.current_task).stack_end = user_stack

variable {contents : Contents}

theorem Showing.found (h : Showing contents r k) (hv : v.toNat < 2 ^ 47)
    (hb : byteAt k.mm.mem (pte_addr k.mm.cr3) v = some b) : newByte contents v = some b := by
  obtain ⟨shown, hshows, hsame⟩ := h.shown
  rw [h.cr3, hshows.byteAt (pathOf_user (userHalf_of_lt hv) 4), Option.map_eq_some_iff] at hb
  obtain ⟨bytes, hbytes, rfl⟩ := hb
  unfold newByte
  rcases hsame v hv with heq | ⟨hnone, hzero, hstack⟩
  · rw [← heq, hbytes]
  · rw [hzero, Option.some.injEq] at hbytes
    rw [hnone, ← hbytes]
    exact if_pos hstack

theorem stack_of_page {w : BitVec 64} (hv : v.toNat < 2 ^ 47) (hw : w.toNat < 2 ^ 47)
    (hpage : pageNumber w = pageNumber v) (hstack : user_stack - 4 * 4096 ≤ v ∧ v < user_stack) :
    user_stack - 4 * 4096 ≤ w ∧ w < user_stack := by
  rw [pageNumber_of_lt hv, pageNumber_of_lt hw] at hpage
  simp only [BitVec.le_def, BitVec.lt_def, show (user_stack - 4 * 4096).toNat = 0x3FFFC000 from rfl,
    show user_stack.toNat = 0x40000000 from rfl] at hstack ⊢
  omega

theorem Showing.fault (h : Showing contents r k) (hv : v.toNat < 2 ^ 47)
    (habsent : byteAt k.mm.mem (pte_addr k.mm.cr3) v = none)
    (hfault : handle_page_fault k v 0 = .ok k') :
    Showing contents r k' ∧ ∃ mm, k' = { k with mm := mm } := by
  obtain ⟨shown, hshows, hsame⟩ := h.shown
  have hnone : shown (pageNumber v) = none := by
    rw [h.cr3, hshows.byteAt (pathOf_user (userHalf_of_lt hv) 4)] at habsent
    simpa using habsent
  have hcontents : contents (pageNumber v) = none := by
    rcases hsame v hv with heq | ⟨-, hzero, -⟩
    · rw [← heq, hnone]
    · rw [hnone] at hzero
      cases hzero
  rcases handle_page_fault_cases hfault with ⟨hstack, phys, mm1, mm2, halloc, hmap,
    rfl⟩ | ⟨-, hwrite, -⟩
  swap
  · exact absurd rfl hwrite
  have hrange : user_stack - 4 * 4096 ≤ v ∧ v < user_stack := by
    unfold stack_fault at hstack
    simpa [h.stack_start, h.stack_end] using hstack
  have hl := map_new_spec hshows.tables hshows.current_pgd
    (pathOf_user (stack_page hrange.1 hrange.2).1 4) halloc hmap
  have hshown := hshows.load hl
  rw [pageNumber_page] at hshown
  refine ⟨⟨?_, ⟨_, hshown, fun w hw => ?_⟩, h.stack_start, h.stack_end⟩, mm2, rfl⟩
  · exact (congrArg pte_addr hl.only.cr3).trans h.cr3
  · by_cases hpage : pageNumber w = pageNumber v
    · rw [hpage, Function.update_self]
      exact .inr ⟨hcontents, rfl, stack_of_page hv hw hpage hrange⟩
    · rw [Function.update_of_ne hpage]
      exact hsame w hw

theorem load_byte_showing (h : Showing contents r k) (hv : v.toNat < 2 ^ 47)
    (hload : load_byte k v = .ok (b, k')) :
    newByte contents v = some b ∧ Showing contents r k' ∧ ∃ mm, k' = { k with mm := mm } := by
  unfold load_byte at hload
  cases hb : byteAt k.mm.mem (pte_addr k.mm.cr3) v with
  | some b' =>
    rw [hb] at hload
    cases hload
    exact ⟨h.found hv hb, h, k.mm, rfl⟩
  | none =>
    rw [hb] at hload
    obtain ⟨k1, hfault, hload⟩ := bind_ok.mp hload
    obtain ⟨hshowing, hmm⟩ := h.fault hv hb hfault
    cases hb1 : byteAt k1.mm.mem (pte_addr k1.mm.cr3) v with
    | some b' =>
      rw [hb1] at hload
      cases hload
      exact ⟨hshowing.found hv hb1, hshowing, hmm⟩
    | none =>
      rw [hb1] at hload
      cases hload

/-! ## The whole copy -/

variable {c c' : Copy}

theorem store_name (hi : i < 32) : (c.store i b).name = Function.update c.name i b := by
  unfold Copy.store
  rw [if_pos hi]

theorem store_name_off (hj : j < i ∨ 32 ≤ i) : (c.store i b).name j = c.name j := by
  unfold Copy.store
  split_ifs with hi hi'
  · exact Function.update_of_ne (by omega) _ _
  · rfl
  · rfl

theorem kstrcpy_name_off {src : BitVec 64} (hj : j < i ∨ 32 ≤ i)
    (h : kstrcpy_name fuel i src c = .ok c') : c'.name j = c.name j := by
  induction fuel generalizing i src c with
  | zero => cases h
  | succ fuel ih =>
    unfold kstrcpy_name at h
    obtain ⟨⟨b, k1⟩, -, h⟩ := bind_ok.mp h
    dsimp only at h
    split_ifs at h with hzero
    · cases h
      exact store_name_off hj
    · exact (ih (by omega) h).trans (store_name_off hj)

def CopiesByte (contents : Contents) (src : BitVec 64) (i : Nat) (c' : Copy) (m : Nat) : Prop :=
  ∃ b, b ≠ 0 ∧ newByte contents (src + BitVec.ofNat 64 m) = some b ∧ c'.name (i + m) = b

theorem kstrcpy_name_spec {src : BitVec 64} (hshow : Showing contents r c.kernel) (hi : i ≤ 32)
    (hsrc : src.toNat + fuel ≤ 2 ^ 47) (h : kstrcpy_name fuel i src c = .ok c') :
    (∃ n, i + n < 32 ∧ (∀ m < n, CopiesByte contents src i c' m) ∧ newByte contents (src + BitVec.ofNat 64 n) = some 0 ∧
      c'.name (i + n) = 0 ∧ c'.spill = c.spill ∧ ∃ mm, c'.kernel = { c.kernel with mm := mm }) ∨
    ∀ m, i + m < 32 → CopiesByte contents src i c' m := by
  induction fuel generalizing i src c with
  | zero => cases h
  | succ fuel ih =>
    rcases hi.eq_or_lt with rfl | hi
    · exact .inr fun m hm => by omega
    unfold kstrcpy_name at h
    obtain ⟨⟨b, k1⟩, hload, h⟩ := bind_ok.mp h
    obtain ⟨hbyte, hshow1, mm, rfl⟩ := load_byte_showing hshow (by omega) hload
    dsimp only at h
    have hfirst : newByte contents (src + BitVec.ofNat 64 0) = some b := by simpa using hbyte
    split_ifs at h with hzero
    · cases h
      subst hzero
      refine .inl ⟨0, hi, fun m hm => absurd hm (Nat.not_lt_zero m), hfirst, ?_, ?_, mm, ?_⟩
      · rw [store_name hi]
        exact Function.update_self _ _ _
      · unfold Copy.store
        rw [if_pos hi]
      · unfold Copy.store
        rw [if_pos hi]
    · have hname : c'.name i = b := by
        rw [kstrcpy_name_off (by omega) h, store_name hi]
        exact Function.update_self _ _ _
      have hstore : ({ c with kernel := { c.kernel with mm := mm } }.store i b).kernel =
          { c.kernel with mm := mm } := by
        unfold Copy.store
        rw [if_pos hi]
      have hspill : ({ c with kernel := { c.kernel with mm := mm } }.store i b).spill = c.spill := by
        unfold Copy.store
        rw [if_pos hi]
      have hone : (src + 1).toNat ≤ src.toNat + 1 := by
        rw [BitVec.toNat_add]
        exact Nat.mod_le _ _
      have hnext : ∀ m, CopiesByte contents (src + 1) (i + 1) c' m →
          CopiesByte contents src i c' (m + 1) := by
        rintro m ⟨b', hb', hnew, heq⟩
        rw [add_next] at hnew
        exact ⟨b', hb', hnew, by rw [← heq, Nat.add_assoc, Nat.add_comm 1]⟩
      have hgoes : CopiesByte contents src i c' 0 := ⟨b, hzero, hfirst, hname⟩
      rcases ih (by rw [hstore]; exact hshow1) (by omega) (by omega) h with
        ⟨n, hn, hall, hend, hlast, hsame, mm', hk⟩ | hall
      · refine .inl ⟨n + 1, by omega, fun m hm => ?_, by rwa [← add_next],
          ?_, by rw [hsame, hspill], mm', ?_⟩
        · cases m with
          | zero => exact hgoes
          | succ m => exact hnext m (hall m (by omega))
        · rw [← hlast, Nat.add_assoc, Nat.add_comm 1]
        · rw [hk, hstore]
      · refine .inr fun m hm => ?_
        cases m with
        | zero => exact hgoes
        | succ m => exact hnext m (hall m (by omega))

/-! ## The name after the call -/

theorem Named.iff_of_copy {t : Task} {string : List (BitVec 8)} {k1 : Kernel} {name : Mem}
    {new_cr3 : BitVec 64} (hnul : 0 ∉ string) (hshow : Showing contents r k1)
    (htask : k1.task k1.current_task = t.set_image new_cr3) (hpath : path.toNat ≤ 2 ^ 47)
    (h : kstrcpy_name (2 ^ 47 - path.toNat) 0 path ⟨k1, name, []⟩ = .ok c) :
    Named t string c ↔ StringAt (newByte contents) path (string.take 31) := by
  have hlen : (string.take 31).length ≤ 31 := List.length_take_le 31 string
  have hne : ∀ m < (string.take 31).length, (string.take 31).getD m 0 ≠ 0 := by
    intro m hm heq
    rw [List.getD_eq_getElem?_getD, List.getElem?_eq_getElem hm, Option.getD_some] at heq
    exact hnul (List.mem_of_mem_take (heq ▸ List.getElem_mem hm))
  have hzero : (string.take 31).getD (string.take 31).length 0 = 0 := by
    rw [List.getD_eq_getElem?_getD, List.getElem?_eq_none (Nat.le_refl _), Option.getD_none]
  rcases kstrcpy_name_spec hshow (Nat.zero_le 32) (by omega) h with
    ⟨n, hn, hall, hend, hlast, hspill, mm, hk⟩ | hall
  · rw [Nat.zero_add] at hlast
    -- Up to its zero, what was found is what the name has now.
    have hfound : ∀ m ≤ n, newByte contents (path + BitVec.ofNat 64 m) = some (c.name m) ∧
        (c.name m = 0 → m = n) := by
      intro m hm
      rcases hm.eq_or_lt with rfl | hm
      · rw [hlast]
        exact ⟨hend, fun _ => rfl⟩
      · obtain ⟨b, hb, hnew, hname⟩ := hall m hm
        rw [Nat.zero_add] at hname
        rw [hname]
        exact ⟨hnew, fun hb' => absurd hb' hb⟩
    constructor
    · intro hnamed m hm
      have hle : (string.take 31).length ≤ n := by
        by_contra hlt
        exact hne n (by omega) ((hnamed.name n (by omega)).symm.trans hlast)
      rw [(hfound m (by omega)).1, hnamed.name m hm]
    · intro hstring
      have hle : (string.take 31).length ≤ n := by
        by_contra hlt
        have hbyte := hstring n (by omega)
        rw [hend, Option.some.injEq] at hbyte
        exact hne n (by omega) hbyte.symm
      have hname : ∀ m ≤ (string.take 31).length, c.name m = (string.take 31).getD m 0 := by
        intro m hm
        have hbyte := hstring m hm
        rwa [(hfound m (by omega)).1, Option.some.injEq] at hbyte
      refine ⟨hname, ⟨new_cr3, user_stack - 4 * 4096, user_stack, ?_⟩, hspill⟩
      rw [hk]
      exact htask
  · constructor
    · intro hnamed
      obtain ⟨b, hb, -, hname⟩ := hall (string.take 31).length (by omega)
      rw [Nat.zero_add, hnamed.name _ (Nat.le_refl _), hzero] at hname
      exact absurd hname.symm hb
    · intro hstring
      obtain ⟨b, hb, hnew, -⟩ := hall (string.take 31).length (by omega)
      rw [hstring _ (Nat.le_refl _), hzero, Option.some.injEq] at hnew
      exact absurd hnew.symm hb

/-- After a call that succeeds, the name is the path of the caller exactly when the new space has
this path, cut to 31 bytes, at the pointer. -/
theorem execve_name_iff {regs regs' : Registers} {vfs : List (BitVec 8) → PathFile}
    {name elf_data : Mem} {string : List (BitVec 8)}
    (hstring : StringAt (byteAt k.mm.mem (pte_addr k.mm.cr3)) path string) (hnul : 0 ∉ string)
    (huser : path.toNat + string.length < 2 ^ 47) (hfile : vfs string = .readable elf_data)
    (himage : ImagePages UserHalf elf_data) (hconsole : k.mm.pmm.page_used consolePage = true)
    (hk : sys_execve_at k regs vfs path name = .ok (0, regs', c)) :
    Named (k.task k.current_task) string c ↔
      StringAt (newByte (imageContents (consoleContents k.mm.mem) elf_data)) path
        (string.take 31) := by
  unfold sys_execve_at at hk
  rw [read_string_at hstring hnul (by omega)] at hk
  obtain ⟨⟨string', k'⟩, heq, hk⟩ := bind_ok.mp hk
  cases heq
  dsimp only at hk
  rw [hfile] at hk
  obtain ⟨⟨f, k1⟩, h1, hk⟩ := bind_ok.mp hk
  obtain ⟨⟨p, k2⟩, h2, hk⟩ := bind_ok.mp hk
  obtain ⟨-, heap1, rfl, -⟩ := kmalloc_object_ok (by decide) h1
  obtain ⟨-, heap2, rfl, -⟩ := kmalloc_object_ok (by decide) h2
  dsimp only at hk
  split_ifs at hk with hmagic
  · cases hk
  obtain ⟨⟨new_cr3, mm⟩, hload, hk⟩ := bind_ok.mp hk
  obtain ⟨c', hcopy, hk⟩ := bind_ok.mp hk
  cases hk
  have hshows := load_image_shows hconsole himage hload
  obtain ⟨hcr3, hpgd, -⟩ := load_image_root hload
  have haddr : pte_addr new_cr3 = new_cr3 := Option.some.inj (hpgd.symm.trans hshows.current_pgd)
  obtain ⟨k1, hk1⟩ : ∃ k1, k1 = Kernel.update_task { k with heap_ptr := heap2, mm := mm } k.current_task
    fun t => t.set_image new_cr3 := ⟨_, rfl⟩
  have htask : k1.task k1.current_task = (k.task k.current_task).set_image new_cr3 := by
    rw [hk1]
    exact Function.update_self _ _ _
  have hshow : Showing (imageContents (consoleContents k.mm.mem) elf_data) new_cr3 k1 := by
    refine ⟨?_, ⟨_, ?_, fun v _ => .inl rfl⟩, by rw [htask]; rfl, by rw [htask]; rfl⟩
    · rw [hk1]
      exact (congrArg pte_addr hcr3).trans haddr
    · rw [hk1]
      exact hshows
  have hcopied : kstrcpy_name (2 ^ 47 - path.toNat) 0 path ⟨k1, name, []⟩ = .ok c := by
    rw [hk1]
    exact hcopy
  exact Named.iff_of_copy hnul hshow htask (by omega) hcopied

/-! ## A program with a path of its own -/

def imaged (k : Kernel) (heap_ptr : BitVec 32) (mm : Mm) (new_cr3 : BitVec 64) : Kernel :=
  Kernel.update_task { k with heap_ptr := heap_ptr, mm := mm } k.current_task fun t =>
    t.set_image new_cr3

theorem sys_execve_at_of_copy {elf_data : Mem} {string : List (BitVec 8)} {mm : Mm}
    {new_cr3 : BitVec 64} (regs : Registers) (vfs : List (BitVec 8) → PathFile) (name : Mem)
    (hstring : StringAt (byteAt k.mm.mem (pte_addr k.mm.cr3)) path string) (hnul : 0 ∉ string)
    (huser : path.toNat + string.length < 2 ^ 47) (hfile : vfs string = .readable elf_data)
    (hmagic : (Elf64Hdr.at elf_data).e_magic = ELF_MAGIC)
    (hheap : k.heap_ptr.toNat + 4128 ≤ 4194304)
    (hload : load_image k.mm elf_data = .ok (new_cr3, mm)) : ∃ heap_ptr regs', ∀ c,
      kstrcpy_name (2 ^ 47 - path.toNat) 0 path ⟨imaged k heap_ptr mm new_cr3, name, []⟩ = .ok c →
        sys_execve_at k regs vfs path name = .ok (0, regs', c) := by
  obtain ⟨f, b, heap1, heap2, hobject1, hobject2⟩ := execve_objects hheap
  refine ⟨heap2, { regs with
    rip := (Elf64Hdr.at elf_data).e_entry, rsp := user_stack - 16, cs := 0x23,
    ss := 0x1B, rflags := 0x202 }, fun c hcopy => ?_⟩
  unfold sys_execve_at
  rw [read_string_at hstring hnul (by omega)]
  refine bind_ok.mpr ⟨_, rfl, ?_⟩
  dsimp only
  rw [hfile]
  refine bind_ok.mpr ⟨_, hobject1, bind_ok.mpr ⟨_, hobject2, ?_⟩⟩
  dsimp only
  rw [if_neg (not_not.mpr hmagic)]
  exact bind_ok.mpr ⟨_, hload, bind_ok.mpr ⟨c, hcopy, rfl⟩⟩

theorem imageContents_single {base : Contents} {elf_data : Mem} {ph : Elf64Phdr}
    (himage : imagePages elf_data = [(ph, 0)]) (hv : pageNumber v = pageNumber (ph.page 0)) :
    imageContents base elf_data (pageNumber v) = some (pageBytes elf_data ph 0) := by
  unfold imageContents
  rw [himage, hv]
  exact Function.update_self _ _ _

theorem selfImage_single : imagePages selfImage = [(⟨PT_LOAD, 0, 0x400000, 0xA9, 0x1000⟩, 0)] := rfl

theorem selfImage_slash (base : Contents) :
    StringAt (newByte (imageContents base selfImage)) 0x4000A8 [0x2F] := by
  intro i hi
  have hi : i = 0 ∨ i = 1 := by
    simp at hi
    omega
  unfold newByte
  rcases hi with rfl | rfl
  · rw [imageContents_single selfImage_single (by decide)]
    decide +kernel
  · rw [imageContents_single selfImage_single (by decide)]
    decide +kernel

def zeroImage : Mem
  | 0 => 0x7F | 1 => 0x45 | 2 => 0x4C | 3 => 0x46
  | 32 => 64
  | 56 => 1
  | 64 => 1
  | 82 => 0x40
  | 105 => 0x10
  | _ => 0

theorem zeroImage_single : imagePages zeroImage = [(⟨PT_LOAD, 0, 0x400000, 0, 0x1000⟩, 0)] := rfl

theorem Shows.byteAt_image {s : Mm} {base : Contents} {elf_data : Mem} {ph : Elf64Phdr}
    (h : Shows UserPath s r (imageContents base elf_data)) (himage : imagePages elf_data = [(ph, 0)])
    (hv : pageNumber v = pageNumber (ph.page 0)) (huser : UserHalf v) :
    Process.byteAt s.mem r v = newByte (imageContents base elf_data) v := by
  unfold newByte
  rw [h.byteAt (pathOf_user huser 4), imageContents_single himage hv]
  rfl

theorem Shows.slash {s : Mm} {base : Contents}
    (h : Shows UserPath s r (imageContents base selfImage)) :
    StringAt (Process.byteAt s.mem r) 0x4000A8 [0x2F] := by
  intro i hi
  refine Eq.trans ?_ (selfImage_slash base i hi)
  have hi : i = 0 ∨ i = 1 := by
    simp at hi
    omega
  rcases hi with rfl | rfl
  · exact h.byteAt_image selfImage_single (by decide) (by decide)
  · exact h.byteAt_image selfImage_single (by decide) (by decide)

theorem bootMm_used :
    bootMm.pmm.page_used consolePage = true ∧
      bootMm.pmm.page_used (pageOf (pte_addr bootMm.cr3)) = true := by
  unfold bootMm start_mm
  simp only [pmm_init_used]
  decide

theorem small_caller :
    ∃ k0 k out, sched_init (Kernel.boot bootMm 0) = .ok k0 ∧
    exec_user_program k0 selfImage = .ok (out, k) ∧
    StringAt (byteAt k.mm.mem (pte_addr k.mm.cr3)) 0x4000A8 [0x2F] ∧
    k.mm.pmm.page_used consolePage = true ∧
    k.heap_ptr.toNat + 4128 ≤ 4194304 ∧ Pool 65016 k.mm := by
  obtain ⟨k0, -, hinit, hstarted, -⟩ := small_start
  have hmm := hstarted.mm_eq
  have hheap : k0.heap_ptr.toNat + 4128 ≤ 4194304 :=
    (congrArg (· + 4128) hstarted.heap).trans_le (by decide)
  have hpool : Pool (65016 + 8) k0.mm := by
    rw [hmm]
    exact Vmalloc.small_pool
  obtain ⟨hconsole, hroot⟩ := bootMm_used
  rw [← hmm] at hconsole hroot
  obtain ⟨new_cr3, mm, hload, hexec, hpool'⟩ := exec_selfImage hpool
  have hshows := load_image_shows hconsole (selfImage_pages (by decide)) hload
  obtain ⟨hcr3, s, hloading, hrun⟩ := load_image_console hload
  have hloaded := (load_pages_loading
    (hloading UserPath (userKind _) (pathOf_user (by decide) 4) (not_free_of_used hroot))
    (imagePages_user (selfImage_pages (by decide))) hrun).1
  refine ⟨k0, _, _, hinit, hexec, ?_, hloaded.used _ hconsole, hheap, hpool'⟩
  change StringAt (byteAt mm.mem (pte_addr mm.cr3)) _ _
  rw [hcr3]
  exact hshows.slash

theorem store_mm (c : Copy) (i : Nat) (b : BitVec 8) : (c.store i b).kernel.mm = c.kernel.mm := by
  unfold Copy.store
  split_ifs <;> rfl

theorem kstrcpy_name_total {string : List (BitVec 8)} (fuel i : Nat) (c : Copy) (hnul : 0 ∉ string)
    (hfuel : string.length < fuel)
    (h : StringAt (byteAt c.kernel.mm.mem (pte_addr c.kernel.mm.cr3)) v string) :
    ∃ c', kstrcpy_name fuel i v c = .ok c' := by
  induction string generalizing v fuel i c with
  | nil =>
    obtain ⟨fuel, rfl⟩ := Nat.exists_eq_add_one_of_ne_zero (by omega : fuel ≠ 0)
    unfold kstrcpy_name
    rw [load_byte_some h.head]
    exact ⟨_, rfl⟩
  | cons b string ih =>
    obtain ⟨fuel, rfl⟩ := Nat.exists_eq_add_one_of_ne_zero (by omega : fuel ≠ 0)
    rw [List.mem_cons, not_or] at hnul
    rw [List.length_cons] at hfuel
    obtain ⟨c', hc'⟩ := ih fuel (i + 1) (c.store i b) hnul.2 (by omega) (by rw [store_mm]; exact h.tail)
    refine ⟨c', ?_⟩
    unfold kstrcpy_name
    rw [load_byte_some h.head]
    refine bind_ok.mpr ⟨_, rfl, ?_⟩
    dsimp only
    rw [List.getD_cons_zero, if_neg (Ne.symm hnul.1)]
    exact hc'

/-- `selfImage` runs itself again by the path at its last slash. -/
theorem own_path_named : ∃ k0 k out regs' c, sched_init (Kernel.boot bootMm 0) = .ok k0 ∧
    exec_user_program k0 selfImage = .ok (out, k) ∧
    StringAt (byteAt k.mm.mem (pte_addr k.mm.cr3)) 0x4000A8 [0x2F] ∧
    sys_execve_at k zeroRegs (fun _ => .readable selfImage) 0x4000A8 (fun _ => 0) =
      .ok (0, regs', c) ∧ Named (k.task k.current_task) [0x2F] c := by
  obtain ⟨k0, k, out, hinit, hexec, hstring, hconsole, hheap, hpool⟩ := small_caller
  obtain ⟨new_cr3, mm, hload, -⟩ := load_selfImage_pool (n := 65008) hpool
  obtain ⟨heap_ptr, regs', hrun⟩ := sys_execve_at_of_copy zeroRegs (fun _ => .readable selfImage)
    (fun _ => 0) hstring
    (by decide) (by decide) rfl rfl hheap hload
  have hshows := load_image_shows hconsole (selfImage_pages (by decide)) hload
  have hnew : StringAt (byteAt mm.mem (pte_addr mm.cr3)) 0x4000A8 [0x2F] := by
    rw [(load_image_console hload).1]
    exact hshows.slash
  obtain ⟨c, hcopy⟩ := kstrcpy_name_total (2 ^ 47 - (0x4000A8 : BitVec 64).toNat) 0
    ⟨imaged k heap_ptr mm new_cr3, fun _ => 0, []⟩ (by decide) (by decide) hnew
  have hk := hrun c hcopy
  refine ⟨k0, k, out, regs', c, hinit, hexec, hstring, hk, ?_⟩
  exact (execve_name_iff hstring (by decide) (by decide) rfl (selfImage_pages (by decide))
    hconsole hk).mpr
    (selfImage_slash _)

/-- The same program runs one that has zeros where the path was. -/
theorem lost_path : ∃ k0 k out regs' c, sched_init (Kernel.boot bootMm 0) = .ok k0 ∧
    exec_user_program k0 selfImage = .ok (out, k) ∧
    StringAt (byteAt k.mm.mem (pte_addr k.mm.cr3)) 0x4000A8 [0x2F] ∧
    sys_execve_at k zeroRegs (fun _ => .readable zeroImage) 0x4000A8 (fun _ => 0) =
      .ok (0, regs', c) ∧ c.name 0 = 0 ∧ ¬ Named (k.task k.current_task) [0x2F] c := by
  obtain ⟨k0, k, out, hinit, hexec, hstring, hconsole, hheap, hpool⟩ := small_caller
  obtain ⟨new_cr3, mm, hload⟩ := load_image_pool zeroImage (hpool.le (by rw [zeroImage_single]; decide))
  obtain ⟨heap_ptr, regs', hrun⟩ := sys_execve_at_of_copy zeroRegs (fun _ => .readable zeroImage)
    (fun _ => 0) hstring
    (by decide) (by decide) rfl rfl hheap hload
  have hshows := load_image_shows hconsole (imagePages_iff.mpr (by rw [zeroImage_single]; decide)) hload
  have hnew : byteAt mm.mem (pte_addr mm.cr3) 0x4000A8 = some 0 := by
    rw [(load_image_console hload).1, hshows.byteAt_image zeroImage_single (by decide) (by decide)]
    unfold newByte
    rw [imageContents_single zeroImage_single (by decide)]
    decide +kernel
  have hcopy : kstrcpy_name (2 ^ 47 - (0x4000A8 : BitVec 64).toNat) 0 0x4000A8
    ⟨imaged k heap_ptr mm new_cr3, fun _ => 0, []⟩ =
      .ok (Copy.store ⟨imaged k heap_ptr mm new_cr3, fun _ => 0, []⟩ 0 0) := by
    obtain ⟨fuel, hfuel⟩ := Nat.exists_eq_add_one_of_ne_zero
      (by decide : 2 ^ 47 - (0x4000A8 : BitVec 64).toNat ≠ 0)
    have hbyte : load_byte (imaged k heap_ptr mm new_cr3) 0x4000A8 =
        .ok (0, imaged k heap_ptr mm new_cr3) := load_byte_some hnew
    rw [hfuel]
    unfold kstrcpy_name
    rw [hbyte]
    rfl
  refine ⟨k0, k, out, regs', _, hinit, hexec, hstring, hrun _ hcopy, rfl, fun hnamed => ?_⟩
  have hslash : (0 : BitVec 8) = 0x2F := hnamed.name 0 (by decide)
  exact absurd hslash (by decide)

end Relis.Process
