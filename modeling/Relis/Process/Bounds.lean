import Relis.Process.Load
import Relis.Process.Run

/-!
# What `sys_execve` reads of the file

After the magic, `sys_execve` takes every offset and every size from the buffer as it is.
-/

open Relis.Bytes Relis.Run Relis.Code Relis.Slab Relis.PageAlloc

namespace Relis.Process

variable {k k1 k2 : Kernel} {m m' : Mem} {i j n : Nat}

/-! ## The reads -/

def buffer (data : List (BitVec 8)) (rest : Mem) : Mem := fun x => data.getD x (rest x)

def phdrOffset (elf_data : Mem) (i : Nat) : Nat :=
  ((Elf64Hdr.at elf_data).e_phoff + BitVec.ofNat 64 (56 * i)).toNat

/-- For page `j` of a segment: `p_offset` and the bytes to copy. -/
def pageReads (elf_data : Mem) (i j : Nat) : List Nat :=
  let ph := Elf64Phdr.at elf_data i
  if BitVec.ofNat 64 j * 4096 < ph.p_filesz then
    List.range' (phdrOffset elf_data i + 8) 8 ++
      List.range' (ph.p_offset + BitVec.ofNat 64 j * 4096).toNat (copied ph j)
  else []

/-- `p_type`, and for a segment `p_vaddr`, `p_filesz`, `p_memsz` and its pages. -/
def segmentReads (elf_data : Mem) (i : Nat) : List Nat :=
  let ph := Elf64Phdr.at elf_data i
  List.range' (phdrOffset elf_data i) 4 ++
    if ph.p_type = PT_LOAD then
      List.range' (phdrOffset elf_data i + 16) 8 ++ List.range' (phdrOffset elf_data i + 32) 16 ++
        (List.range ph.pages.toNat).flatMap (pageReads elf_data i)
    else []

/-- The offsets into `elf_data` that `sys_execve` reads when it runs to its end: `e_magic`, then
`e_entry`, `e_phoff`, `e_phnum` and the program headers. -/
def execveReads (elf_data : Mem) : List Nat :=
  let hdr := Elf64Hdr.at elf_data
  List.range' 0 4 ++
    if hdr.e_magic = ELF_MAGIC then
      List.range' 24 16 ++ List.range' 56 2 ++
        (List.range hdr.e_phnum.toNat).flatMap (segmentReads elf_data)
    else []

/-! ## Nothing else is read -/

def AgreeOn (l : List Nat) (m m' : Mem) : Prop := ∀ x ∈ l, m' x = m x

theorem AgreeOn.left {l l' : List Nat} (h : AgreeOn (l ++ l') m m') : AgreeOn l m m' :=
  fun x hx => h x (List.mem_append_left _ hx)

theorem AgreeOn.right {l l' : List Nat} (h : AgreeOn (l ++ l') m m') : AgreeOn l' m m' :=
  fun x hx => h x (List.mem_append_right _ hx)

theorem AgreeOn.flatMap {f : Nat → List Nat} (h : AgreeOn ((List.range n).flatMap f) m m')
    (hi : i < n) : AgreeOn (f i) m m' :=
  fun x hx => h x (List.mem_flatMap.mpr ⟨i, List.mem_range.mpr hi, hx⟩)

theorem AgreeOn.at {a w : Nat} (h : AgreeOn (List.range' a w) m m') (hi : i < w) :
    m' (a + i) = m (a + i) :=
  h (a + i) (List.mem_range'_1.mpr (by omega))

theorem AgreeOn.read64 {a w : Nat} (h : AgreeOn (List.range' a w) m m') (hi : i + 8 ≤ w) :
    Bytes.read64 m' (a + i) = Bytes.read64 m (a + i) := by
  apply read64_congr
  intro x hlow hhigh
  exact h x (List.mem_range'_1.mpr (by omega))

theorem AgreeOn.read32 {a : Nat} (h : AgreeOn (List.range' a 4) m m') :
    Bytes.read32 m' a = Bytes.read32 m a :=
  read32_congr fun _ hi => h.at hi

theorem AgreeOn.read16 {a : Nat} (h : AgreeOn (List.range' a 2) m m') :
    Bytes.read16 m' a = Bytes.read16 m a := by
  unfold Bytes.read16
  rw [h.at (i := 1) (by omega), show m' a = m a from h.at (i := 0) (by omega)]

theorem kmemcpy_into_congr {dest src src' : Mem} {d a a' : Nat}
    (h : ∀ x < n, src' (a' + x) = src (a + x)) :
    kmemcpy_into dest src' d a' n = kmemcpy_into dest src d a n := by
  funext x
  rw [kmemcpy_into_apply, kmemcpy_into_apply]
  split_ifs with hx
  · exact h (x - d) (by omega)
  · rfl

theorem load_page_agree (hoff : phdrOffset m' i = phdrOffset m i)
    (hvaddr : (Elf64Phdr.at m' i).p_vaddr = (Elf64Phdr.at m i).p_vaddr)
    (hfilesz : (Elf64Phdr.at m' i).p_filesz = (Elf64Phdr.at m i).p_filesz)
    (h : AgreeOn (pageReads m i j) m m') :
    load_page m' (Elf64Phdr.at m' i) j = load_page m (Elf64Phdr.at m i) j := by
  funext s
  unfold load_page
  rw [show (Elf64Phdr.at m' i).page j = (Elf64Phdr.at m i).page
    j by unfold Elf64Phdr.page; rw [hvaddr], hfilesz]
  refine congrArg (Bind.bind _) (funext fun ⟨phys, s1⟩ => congrArg (Bind.bind _) (funext fun s2 => ?_))
  dsimp only
  by_cases hcopy : BitVec.ofNat 64 j * 4096 < (Elf64Phdr.at m i).p_filesz
  · unfold pageReads at h
    rw [if_pos hcopy] at h
    have hoffset : (Elf64Phdr.at m' i).p_offset = (Elf64Phdr.at m i).p_offset := by
      change Bytes.read64 m' (phdrOffset m' i + 8) = Bytes.read64 m (phdrOffset m i + 8)
      rw [hoff]
      exact h.left.read64 (i := 0) (by omega)
    rw [if_pos hcopy, if_pos hcopy, hoffset, kmemcpy_into_congr fun x hx => h.right.at ?_]
    unfold copied
    rw [if_pos hcopy]
    exact hx
  · rw [if_neg hcopy, if_neg hcopy]

theorem load_segment_agree (hphoff : (Elf64Hdr.at m').e_phoff = (Elf64Hdr.at m).e_phoff)
    (h : AgreeOn (segmentReads m i) m m') : load_segment m' i = load_segment m i := by
  have hoff : phdrOffset m' i = phdrOffset m i := by
    unfold phdrOffset
    rw [hphoff]
  have htype : (Elf64Phdr.at m' i).p_type = (Elf64Phdr.at m i).p_type := by
    change Bytes.read32 m' (phdrOffset m' i) = Bytes.read32 m (phdrOffset m i)
    rw [hoff]
    exact h.left.read32
  funext s
  unfold load_segment
  dsimp only
  rw [htype]
  split_ifs with hload
  · unfold segmentReads at h
    have hrest := h.right
    rw [if_pos hload] at hrest
    have hvaddr : (Elf64Phdr.at m' i).p_vaddr = (Elf64Phdr.at m i).p_vaddr := by
      change Bytes.read64 m' (phdrOffset m' i + 16) = Bytes.read64 m (phdrOffset m i + 16)
      rw [hoff]
      exact hrest.left.left.read64 (i := 0) (by omega)
    have hfilesz : (Elf64Phdr.at m' i).p_filesz = (Elf64Phdr.at m i).p_filesz := by
      change Bytes.read64 m' (phdrOffset m' i + 32) = Bytes.read64 m (phdrOffset m i + 32)
      rw [hoff]
      exact hrest.left.right.read64 (i := 0) (by omega)
    have hmemsz : (Elf64Phdr.at m' i).p_memsz = (Elf64Phdr.at m i).p_memsz := by
      change Bytes.read64 m' (phdrOffset m' i + 40) = Bytes.read64 m (phdrOffset m i + 40)
      rw [hoff]
      exact hrest.left.right.read64 (i := 8) (by omega)
    rw [show (Elf64Phdr.at m' i).pages =
      (Elf64Phdr.at m i).pages by unfold Elf64Phdr.pages; rw [hmemsz]]
    exact loop_congr
      (fun j _ hj => load_page_agree hoff hvaddr hfilesz (hrest.right.flatMap (by omega))) s
  · rfl

theorem sys_execve_agree (h : AgreeOn (execveReads m) m m') (k : Kernel) (regs : Registers)
    (path : CString) :
    sys_execve k regs (.readable m') path = sys_execve k regs (.readable m) path := by
  unfold execveReads at h
  have hmagic : (Elf64Hdr.at m').e_magic = (Elf64Hdr.at m).e_magic := h.left.read32
  have hrest := h.right
  unfold sys_execve
  dsimp only
  rw [hmagic]
  by_cases hok : (Elf64Hdr.at m).e_magic = ELF_MAGIC
  · rw [if_pos hok] at hrest
    have hentry : (Elf64Hdr.at m').e_entry = (Elf64Hdr.at m).e_entry :=
      hrest.left.left.read64 (i := 0) (by omega)
    have hphoff : (Elf64Hdr.at m').e_phoff = (Elf64Hdr.at m).e_phoff :=
      hrest.left.left.read64 (i := 8) (by omega)
    have hphnum : (Elf64Hdr.at m').e_phnum = (Elf64Hdr.at m).e_phnum := hrest.left.right.read16
    have hloop : loop 0 (Elf64Hdr.at m').e_phnum.toNat (load_segment m') =
        loop 0 (Elf64Hdr.at m).e_phnum.toNat (load_segment m) := by
      rw [hphnum]
      exact funext fun s =>
        loop_congr (fun i _ hi => load_segment_agree hphoff (hrest.right.flatMap (by omega))) s
    have himage : ∀ s, load_image s m' = load_image s m := by
      intro s
      unfold load_image
      rw [hloop]
    simp only [hok, himage, hentry]
  · simp only [hok, ne_eq, not_false_eq_true, if_true]

/-! ## Images that lie in the file -/

def Taken (ph : Elf64Phdr) : Nat := min ph.p_filesz.toNat (4096 * ph.pages.toNat)

structure Fits (elf_data : Mem) (n : Nat) : Prop where
  header : 58 ≤ n
  phdrs : ∀ i < (Elf64Hdr.at elf_data).e_phnum.toNat, phdrOffset elf_data i + 4 ≤ n
  segments : ∀ i < (Elf64Hdr.at elf_data).e_phnum.toNat, (Elf64Phdr.at elf_data i).p_type = PT_LOAD →
    phdrOffset elf_data i + 48 ≤ n ∧
    (0 < Taken (Elf64Phdr.at elf_data i) →
      (Elf64Phdr.at elf_data i).p_offset.toNat + Taken (Elf64Phdr.at elf_data i) ≤ n)

theorem range'_lt_iff {a w : Nat} (hw : 0 < w) : (∀ x ∈ List.range' a w, x < n) ↔ a + w ≤ n := by
  constructor
  · intro h
    have hlast := h (a + (w - 1)) (List.mem_range'_1.mpr (by omega))
    omega
  · intro h x hx
    have hmem := List.mem_range'_1.mp hx
    omega

theorem pages_lt (ph : Elf64Phdr) : ph.pages.toNat < 2 ^ 52 := by
  unfold Elf64Phdr.pages
  rw [BitVec.toNat_udiv]
  have hlt := (ph.p_memsz + 4096 - 1).isLt
  change _ / 4096 < _
  omega

theorem pieces_inside_iff (ph : Elf64Phdr) (hn : n ≤ 4096) (htaken : 0 < Taken ph) :
    (∀ j < ph.pages.toNat, 4096 * j < ph.p_filesz.toNat →
      (ph.p_offset + BitVec.ofNat 64 j * 4096).toNat + copied ph j ≤ n) ↔
        ph.p_offset.toNat + Taken ph ≤ n := by
  have hpages := pages_lt ph
  have hplace : ∀ j < ph.pages.toNat, (ph.p_offset + BitVec.ofNat 64 j * 4096).toNat =
      (ph.p_offset.toNat + 4096 * j) % 2 ^ 64 := by
    intro j hj
    rw [BitVec.toNat_add, toNat_page (by omega)]
  unfold Taken at htaken ⊢
  constructor
  · intro h
    -- A second piece would lie a whole page behind the first one, so there is one piece only.
    have hfirst := h 0 (by omega) (by omega)
    rw [hplace 0 (by omega), copied_eq ph (j := 0) (by omega),
      Nat.mod_eq_of_lt (by have := ph.p_offset.isLt; omega)] at hfirst
    by_cases hmore : 1 < ph.pages.toNat ∧ 4096 < ph.p_filesz.toNat
    · have hsecond := h 1 hmore.1 (by omega)
      rw [hplace 1 hmore.1, copied_eq ph (by omega)] at hsecond
      omega
    · omega
  · intro h j hj hcopy
    rw [hplace j hj, copied_eq ph (by omega)]
    omega

theorem pageReads_inside_iff (elf_data : Mem) (hj : j < (Elf64Phdr.at elf_data i).pages.toNat) :
    (∀ x ∈ pageReads elf_data i j, x < n) ↔ (4096 * j < (Elf64Phdr.at elf_data i).p_filesz.toNat →
      phdrOffset elf_data i + 16 ≤ n ∧
      ((Elf64Phdr.at elf_data i).p_offset + BitVec.ofNat 64 j * 4096).toNat + copied
        (Elf64Phdr.at elf_data i) j ≤ n) := by
  have hpages := pages_lt (Elf64Phdr.at elf_data i)
  have hcopied := copied_eq (Elf64Phdr.at elf_data i) (j := j) (by omega)
  unfold pageReads
  dsimp only
  split_ifs with hcopy
  · rw [BitVec.lt_def, toNat_page (by omega)] at hcopy
    rw [List.forall_mem_append, range'_lt_iff (by omega), range'_lt_iff (by omega)]
    exact ⟨fun h _ => h, fun h => h hcopy⟩
  · rw [BitVec.lt_def, toNat_page (by omega)] at hcopy
    simp [hcopy]

theorem segmentReads_inside_iff (elf_data : Mem) (i : Nat) (hn : n ≤ 4096) :
    (∀ x ∈ segmentReads elf_data i, x < n) ↔ phdrOffset elf_data i + 4 ≤ n ∧
      ((Elf64Phdr.at elf_data i).p_type = PT_LOAD → phdrOffset elf_data i + 48 ≤ n ∧
        (0 < Taken (Elf64Phdr.at elf_data i) →
          (Elf64Phdr.at elf_data i).p_offset.toNat + Taken (Elf64Phdr.at elf_data i) ≤ n)) := by
  unfold segmentReads
  dsimp only
  rw [List.forall_mem_append, range'_lt_iff (by omega)]
  refine and_congr_right fun _ => ?_
  by_cases hload : (Elf64Phdr.at elf_data i).p_type = PT_LOAD
  swap
  · simp [hload]
  rw [if_pos hload, List.forall_mem_append, List.forall_mem_append, range'_lt_iff (by omega),
    range'_lt_iff (by omega)]
  simp only [hload, true_implies, List.forall_mem_flatMap, List.mem_range]
  constructor
  · rintro ⟨⟨-, hfields⟩, hpages⟩
    refine ⟨by omega, fun htaken => (pieces_inside_iff _ hn htaken).mp fun j hj hcopy => ?_⟩
    exact ((pageReads_inside_iff elf_data hj).mp (hpages j hj) hcopy).2
  · rintro ⟨hfields, hpieces⟩
    refine ⟨⟨by omega, by omega⟩, fun j hj => (pageReads_inside_iff elf_data hj).mpr fun hcopy =>
      ⟨by omega, ?_⟩⟩
    have htaken : 0 < Taken (Elf64Phdr.at elf_data i) := by
      unfold Taken
      omega
    exact (pieces_inside_iff _ hn htaken).mpr (hpieces htaken) j hj hcopy

theorem execveReads_inside_iff (elf_data : Mem) (hn : n ≤ 4096) :
    (∀ x ∈ execveReads elf_data, x < n) ↔
    4 ≤ n ∧ ((Elf64Hdr.at elf_data).e_magic = ELF_MAGIC → Fits elf_data n) := by
  unfold execveReads
  dsimp only
  rw [List.forall_mem_append, range'_lt_iff (by omega), Nat.zero_add]
  refine and_congr_right fun _ => ?_
  by_cases hmagic : (Elf64Hdr.at elf_data).e_magic = ELF_MAGIC
  swap
  · simp [hmagic]
  rw [if_pos hmagic, List.forall_mem_append, List.forall_mem_append, range'_lt_iff (by omega),
    range'_lt_iff (by omega)]
  simp only [hmagic, true_implies, List.forall_mem_flatMap, List.mem_range,
    segmentReads_inside_iff elf_data _ hn]
  constructor
  · rintro ⟨⟨-, hheader⟩, hsegments⟩
    exact ⟨hheader, fun i hi => (hsegments i hi).1, fun i hi => (hsegments i hi).2⟩
  · rintro ⟨hheader, hphdrs, hsegments⟩
    exact ⟨⟨by omega, hheader⟩, fun i hi => ⟨hphdrs i hi, hsegments i hi⟩⟩

/-! ## When it reads the file only -/

/-- No read leaves what the file gave, and an image that points outside of it is refused in the
state `k2` that the call has come to with the file in the buffer. -/
structure ReadsFile (k k2 : Kernel) (regs : Registers) (path : CString) (data : List (BitVec 8))
  (rest : Mem) : Prop where
  inside : ∀ x ∈ execveReads (buffer data rest), x < data.length
  refuses : ¬ Fits (buffer data rest) data.length →
    sys_execve k regs (.readable (buffer data rest)) path = .ok (-1, regs, k2)

theorem sys_execve_accepts {elf_data : Mem} {regs regs' : Registers} {path : CString} {ret : Int}
    {k' : Kernel} (hmagic : (Elf64Hdr.at elf_data).e_magic = ELF_MAGIC)
    (h : sys_execve k regs (.readable elf_data) path = .ok (ret, regs', k')) : ret = 0 := by
  unfold sys_execve at h
  obtain ⟨⟨f, k1⟩, -, h⟩ := bind_ok.mp h
  obtain ⟨⟨b, k2⟩, -, h⟩ := bind_ok.mp h
  dsimp only at h
  rw [if_neg (not_not.mpr hmagic)] at h
  obtain ⟨⟨new_cr3, mm⟩, -, h⟩ := bind_ok.mp h
  obtain ⟨t, -, h⟩ := bind_ok.mp h
  cases h
  rfl

/-- The call keeps to the file exactly when the file has a magic to look at, and that is wrong
or the whole image lies in the file. -/
theorem readsFile_iff {f b : Nat} {data : List (BitVec 8)} (hdata : data.length ≤ 4096)
    (hfile : kmalloc_object k sizeof_file = .ok (f, k1))
    (hbuf : kmalloc_object k1 4096 = .ok (b, k2)) (regs : Registers) (path : CString) (rest : Mem) :
    ReadsFile k k2 regs path data rest ↔
      4 ≤ data.length ∧
      ((Elf64Hdr.at (buffer data rest)).e_magic = ELF_MAGIC →
        Fits (buffer data rest) data.length) := by
  constructor
  · intro h
    exact (execveReads_inside_iff _ hdata).mp h.inside
  · intro h
    refine ⟨(execveReads_inside_iff _ hdata).mpr h, fun hout => ?_⟩
    have hmagic : (Elf64Hdr.at (buffer data rest)).e_magic ≠ ELF_MAGIC :=
      fun hmagic => hout (h.2 hmagic)
    unfold sys_execve
    refine bind_ok.mpr ⟨_, hfile, bind_ok.mpr ⟨_, hbuf, ?_⟩⟩
    dsimp only
    rw [if_pos hmagic]
    rfl

/-! ## A small file -/

def smallFile : List (BitVec 8) :=
  [0x7F, 0x45, 0x4C, 0x46] ++ List.replicate 20 0 ++ [0, 0, 0x40, 0, 0, 0, 0, 0] ++
    [64, 0, 0, 0, 0, 0, 0, 0] ++
    List.replicate 16 0 ++ [1, 0] ++ List.replicate 6 0 ++
  [1, 0, 0, 0] ++ List.replicate 4 0 ++ [120, 0, 0, 0, 0, 0, 0, 0] ++ [0, 0, 0x40, 0, 0, 0, 0, 0] ++
    List.replicate 8 0 ++
    [4, 0, 0, 0, 0, 0, 0, 0] ++ [4, 0, 0, 0, 0, 0, 0, 0] ++ List.replicate 8 0 ++
  [0xEB, 0xFE, 0x90, 0x90]

theorem smallFile_length : smallFile.length = 124 := rfl

theorem smallFile_fits : Fits (buffer smallFile fun _ => 0) 124 := by
  have hphnum : (Elf64Hdr.at (buffer smallFile fun _ => 0)).e_phnum.toNat = 1 := by decide +kernel
  refine ⟨by omega, fun i hi => ?_, fun i hi _ => ?_⟩
  · rw [hphnum] at hi
    obtain rfl : i = 0 := by omega
    decide +kernel
  · rw [hphnum] at hi
    obtain rfl : i = 0 := by omega
    decide +kernel

/-- The whole file, in a kernel after `sched_init`. -/
theorem smallFile_read : ∃ k k2, sched_init (Kernel.boot bootMm 0) = .ok k ∧
    ReadsFile k k2 zeroRegs ⟨[0x2F], by decide⟩ smallFile fun _ => 0 := by
  obtain ⟨k, mm, hinit, hstarted, -⟩ := small_start
  have hheap : k.heap_ptr.toNat + 4128 ≤ 4194304 :=
    (congrArg (· + 4128) hstarted.heap).trans_le (by decide)
  obtain ⟨f, b, heap1, heap2, hfile, hbuf⟩ := execve_objects hheap
  have hlength := smallFile_length
  refine ⟨k, _, hinit, (readsFile_iff (by omega) hfile hbuf zeroRegs _ _).mpr ⟨by omega, fun _ => ?_⟩⟩
  rw [hlength]
  exact smallFile_fits

/-- The file cut off behind its header. The program header is read from what lies behind, and
the call does not refuse the file. -/
theorem smallFile_cut :
    ∃ k, sched_init (Kernel.boot bootMm 0) = .ok k ∧ (smallFile.take 64).length = 64 ∧
    64 ∈ execveReads (buffer (smallFile.take 64) fun _ => 0) ∧
    (∀ ret regs' k', sys_execve k zeroRegs (.readable (buffer (smallFile.take 64) fun _ => 0))
      ⟨[0x2F], by decide⟩ =
      .ok (ret, regs', k') → ret = 0) ∧
    ∀ k2, ¬ ReadsFile k k2 zeroRegs ⟨[0x2F], by decide⟩ (smallFile.take 64) fun _ => 0 := by
  obtain ⟨k, mm, hinit, -⟩ := small_start
  have hmagic : (Elf64Hdr.at (buffer (smallFile.take 64) fun _ => 0)).e_magic = ELF_MAGIC := by
    decide +kernel
  have hphnum : (Elf64Hdr.at (buffer (smallFile.take 64) fun _ => 0)).e_phnum.toNat = 1 := by
    decide +kernel
  have hoff : phdrOffset (buffer (smallFile.take 64) fun _ => 0) 0 = 64 := by decide +kernel
  have hlength : (smallFile.take 64).length = 64 := by rw [List.length_take, smallFile_length]; rfl
  have hread : 64 ∈ execveReads (buffer (smallFile.take 64) fun _ => 0) := by
    unfold execveReads
    dsimp only
    rw [if_pos hmagic, hphnum]
    refine List.mem_append_right _ (List.mem_append_right _ (List.mem_flatMap.mpr ⟨0, by simp, ?_⟩))
    unfold segmentReads
    rw [hoff]
    exact List.mem_append_left _ (by decide)
  refine ⟨k, hinit, hlength, hread, fun ret regs' k' h => sys_execve_accepts hmagic h, fun k2 h => ?_⟩
  have hinside := h.inside 64 hread
  omega

/-! ## What lies behind the file -/

/-- The call takes nothing from behind a file that holds all of its image. -/
theorem execve_ignores_rest {data : List (BitVec 8)} {rest : Mem} (hdata : data.length ≤ 4096)
    (hlength : 4 ≤ data.length)
    (hfits : (Elf64Hdr.at (buffer data rest)).e_magic = ELF_MAGIC →
      Fits (buffer data rest) data.length) (rest' : Mem) (k : Kernel) (regs : Registers)
    (path : CString) :
    sys_execve k regs (.readable (buffer data rest')) path =
      sys_execve k regs (.readable (buffer data rest)) path := by
  refine sys_execve_agree (fun x hx => ?_) k regs path
  have hinside := (execveReads_inside_iff _ hdata).mpr ⟨hlength, hfits⟩ x hx
  simp [buffer, hinside]

theorem smallFile_alone :
    sys_execve (Kernel.boot bootMm 0) zeroRegs (.readable (buffer smallFile fun _ => 0xCC))
      ⟨[0x2F], by decide⟩ =
    sys_execve (Kernel.boot bootMm 0) zeroRegs (.readable (buffer smallFile fun _ => 0))
      ⟨[0x2F], by decide⟩ := by
  have hlength := smallFile_length
  exact execve_ignores_rest (by omega) (by omega) (fun _ => hlength ▸ smallFile_fits) _ _ _ _

end Relis.Process
