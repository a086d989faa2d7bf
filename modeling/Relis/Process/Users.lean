import Relis.Process.Isolated

/-!
# Programs and their memory

However programs and calls are interleaved, a program reaches no frame of the kernel, and a
store of one does not show up in a page of another, unless both have attached a shared page.
-/

open Relis.Bytes Relis.Code Relis.PageAlloc Relis.Paging Relis.Run Relis.Sched Relis.Slab

namespace Relis.Process

variable {k k' : Kernel} {w w' : World} {boot r v a : BitVec 64} {s0 : Mm} {p0 : Nat}

/-! ## Shared frames -/

/-- The console, and the pages that `sys_shmget` has given to tasks. -/
def Shared (k : Kernel) (f : Nat) (path : List Nat) : Prop :=
  (f = consolePage ∧ path = pathOf 0xB8000 4) ∨
    ∃ p ∈ k.task_structs, ∃ id < (k.task p).shm_count, f = pageOf ((k.task p).shm_pages id) ∧
      path = pathOf (shmAddr id) 4

def sharedMm (w : World) : SharedMm := ⟨w.kernel.mm, w.spaces, Shared w.kernel⟩

def HasRegions (k : Kernel) (t : TaskMemory) : Prop :=
  t.shm_count = 0 ∨ ∃ q ∈ k.task_structs, (k.task q).shm_count = t.shm_count ∧
    (k.task q).shm_pages = t.shm_pages

theorem hasRegions_self {p : Nat} (hp : p ∈ k.task_structs) : HasRegions k (memory (k.task p)) :=
  .inr ⟨p, hp, rfl, rfl⟩

theorem shared_sub (h : ∀ p ∈ k.task_structs, HasRegions k' (memory (k.task p))) {f : Nat}
    {path : List Nat} (hs : Shared k f path) : Shared k' f path := by
  refine hs.imp_right ?_
  rintro ⟨p, hp, id, hid, hf, hpath⟩
  rcases h p hp with hnone | ⟨q, hq, hcount, hpages⟩
  · have hzero : (k.task p).shm_count = 0 := hnone
    omega
  · have hcount : (k'.task q).shm_count = (k.task p).shm_count := hcount
    have hpages : (k'.task q).shm_pages = (k.task p).shm_pages := hpages
    exact ⟨q, hq, id, hcount ▸ hid, hpages ▸ hf, hpath⟩

theorem shared_eq (h : ∀ p ∈ k.task_structs, HasRegions k' (memory (k.task p)))
    (h' : ∀ p ∈ k'.task_structs, HasRegions k (memory (k'.task p))) : Shared k' = Shared k := by
  funext f path
  exact propext ⟨shared_sub h', shared_sub h⟩

theorem NewTask.shared {mem : TaskMemory} (hnew : NewTask k k' mem) (hlinked : Linked k)
    (hmem : HasRegions k mem) : Shared k' = Shared k := by
  refine shared_eq (fun p hp => ?_) fun p hp => ?_
  · have hne : p ≠ k.heap_ptr.toNat := fun heq => hlinked.fresh (heq ▸ hp)
    rw [← hnew.others p hne]
    exact hasRegions_self (by rw [hnew.task_structs]; exact List.mem_cons_of_mem _ hp)
  · by_cases heq : p = k.heap_ptr.toNat
    · rw [heq, hnew.new]
      exact hmem
    · rw [hnew.others p heq]
      rw [hnew.task_structs] at hp
      exact hasRegions_self ((List.mem_cons.mp hp).resolve_left heq)

theorem Replaced.shared {new_cr3 : BitVec 64} (hnew : Replaced k k' new_cr3) :
    Shared k' = Shared k := by
  have hcount : ∀ p, (memory (k'.task p)).shm_count = (memory (k.task p)).shm_count ∧
      (memory (k'.task p)).shm_pages = (memory (k.task p)).shm_pages := fun p => by
    by_cases heq : p = k.current_task
    · rw [heq, hnew.new]
      exact ⟨rfl, rfl⟩
    · rw [hnew.others p heq]
      exact ⟨rfl, rfl⟩
  refine shared_eq (fun p hp => .inr ⟨p, ?_, (hcount p).1, (hcount p).2⟩)
    fun p hp => .inr ⟨p, ?_, (hcount p).1.symm, (hcount p).2.symm⟩
  · rw [hnew.task_structs]
    exact hp
  · rw [hnew.task_structs] at hp
    exact hp

theorem Switched.shared {next : Nat} (hs : Switched k k' next) : Shared k' = Shared k := by
  refine shared_eq (fun p hp => ?_) fun p hp => ?_
  · rw [← hs.memory p]
    exact hasRegions_self (by rw [hs.task_structs]; exact hp)
  · rw [hs.memory p]
    exact hasRegions_self (by rw [← hs.task_structs]; exact hp)

theorem shmget_shared (phys : BitVec 64) (mm : Mm) (hcurrent : k.current_task ∈ k.task_structs) :
    Shared (Kernel.update_task { k with mm := mm } k.current_task fun t => { t with
      shm_count := (k.task k.current_task).shm_count + 1
      shm_pages := Function.update t.shm_pages (k.task k.current_task).shm_count phys }) =
    fun f q => Shared k f q ∨ (f = pageOf phys ∧ q = pathOf (shmAddr (k.task k.current_task).shm_count) 4) := by
  funext f q
  simp only [Shared, or_assoc]
  refine propext (or_congr_right ⟨?_, ?_⟩)
  · rintro ⟨p, hp, id, hid, hf, hq⟩
    rw [task_update] at hid hf
    split_ifs at hid hf with heq
    · subst heq
      dsimp only at hid hf
      by_cases hlast : id = (k.task k.current_task).shm_count
      · subst hlast
        rw [Function.update_self] at hf
        exact .inr ⟨hf, hq⟩
      · rw [Function.update_of_ne hlast] at hf
        exact .inl ⟨k.current_task, hcurrent, id, by omega, hf, hq⟩
    · exact .inl ⟨p, hp, id, hid, hf, hq⟩
  · rintro (⟨p, hp, id, hid, hf, hq⟩ | ⟨hf, hq⟩)
    · refine ⟨p, hp, id, ?_, ?_, hq⟩
      · rw [task_update]
        split_ifs with heq
        · subst heq
          dsimp only
          omega
        · exact hid
      · rw [task_update]
        split_ifs with heq
        · subst heq
          dsimp only
          rw [Function.update_of_ne (Nat.ne_of_lt hid)]
          exact hf
        · exact hf
    · refine ⟨k.current_task, hcurrent, (k.task k.current_task).shm_count, ?_, ?_, hq⟩
      · rw [task_update, if_pos rfl]
        exact Nat.lt_succ_self _
      · rw [task_update, if_pos rfl]
        dsimp only
        rw [Function.update_self]
        exact hf

/-! ## Calls are edits -/

section Edits

variable {T T' : Set (BitVec 64)} {W W' : Set Nat} {x x' : SharedMm}

theorem Edit.mono (h : Edit T W x x') (hT : T ⊆ T') (hW : W ⊆ W') : Edit T' W' x x' := by
  cases h with
  | load hmem hpmm => exact .load hmem hpmm
  | write honly htables hV => exact .write honly htables (hV.trans hW)
  | map_new hr hrT hflags hnew hm hfill => exact .map_new hr (hT hrT) hflags hnew hm hfill
  | map_shared hr hrT hflags hs huser hm => exact .map_shared hr (hT hrT) hflags hs huser hm
  | new_root hnew => exact .new_root hnew
  | share path hnew => exact .share path hnew

theorem edits_mono (h : Edits T W x x') (hT : T ⊆ T') (hW : W ⊆ W') : Edits T' W' x x' := by
  induction h with
  | refl => exact .refl
  | tail _ hedit ih => exact ih.tail (hedit.mono hT hW)

theorem load_page_edit {elf_data : Mem} {ph : Elf64Phdr} {j : Nat} {mm : Mm}
    (h : Tables x.mm x.roots) (hr : r ∈ x.roots) (hT : r ∈ T) (hpgd : x.mm.current_pgd = some r)
    (hv : UserHalf (ph.page j)) (hload : load_page elf_data ph j x.mm = .ok mm) :
    Edit T W x { x with mm := mm } := by
  obtain ⟨phys, s1, s2, halloc, hmap, hfill⟩ := load_page_cases hload
  have hnew := alloc_page_new halloc
  have hT1 := h.of_only hnew.only fun _ _ => Set.disjoint_empty _
  have hm := arch_map_page_spec hT1 hr (hnew.current_pgd.trans hpgd) (pathOf_user hv 4) hmap
  exact .map_new hr hT (by decide) hnew hm hfill

theorem load_pages_edits {elf_data : Mem} {pages : List (Elf64Phdr × Nat)} {mm : Mm}
    (h : Unmarked boot x.mm x.roots) (hr : r ∈ x.roots) (hT : r ∈ T)
    (hpgd : x.mm.current_pgd = some r) (hv : ∀ q ∈ pages, UserHalf (q.1.page q.2))
    (hload : run (fun s q => load_page elf_data q.1 q.2 s) x.mm pages = .ok mm) :
    Edits T W x { x with mm := mm } := by
  have hstep : ∀ q ∈ pages, ∀ s s' : Mm,
      Edits T W x { x with mm := s } ∧ Unmarked boot s x.roots ∧ s.current_pgd = some r →
      load_page elf_data q.1 q.2 s = .ok s' →
      Edits T W x { x with mm := s' } ∧ Unmarked boot s' x.roots ∧ s'.current_pgd = some r := by
    rintro q hq s s' ⟨hedits, hunmarked, hpgd⟩ hload
    have hext := load_page_extends hunmarked hr hpgd (hv q hq) (Set.empty_subset _)
      (fun hmem => hmem.elim) hload
    refine ⟨hedits.tail ?_, hext.unmarked, (load_page_root hload).2.trans hpgd⟩
    exact load_page_edit (x := { x with mm := s }) hunmarked.tables hr hT hpgd (hv q hq) hload
  exact (run_inv _ hstep ⟨.refl, h, hpgd⟩ hload).1

theorem load_image_edits {elf_data : Mem} {new_cr3 : BitVec 64} {mm : Mm}
    (h : Unmarked boot x.mm x.roots) (hcr3 : AtHome boot x.roots x.mm.cr3)
    (hconsole : x.shared consolePage (pathOf 0xB8000 4)) (himage : ImagePages UserHalf elf_data)
    (hload : load_image x.mm elf_data = .ok (new_cr3, mm)) :
    Edits {r | r ∉ x.roots} W x ⟨mm, insert new_cr3 x.roots, x.shared⟩ := by
  obtain ⟨s1, s2, hnew, hmap, hsegments⟩ := load_image_ok hload
  rw [load_segments_eq] at hsegments
  rw [show consolePage = frame 0xB8000 by decide] at hconsole
  have hin : new_cr3 ∈ insert new_cr3 x.roots := Set.mem_insert _ _
  obtain ⟨hfresh, hext, hpgd, hm⟩ := console_extends h hcr3 hnew hmap
  have hroot : Edit {r | r ∉ x.roots} W x ⟨s1, insert new_cr3 x.roots, x.shared⟩ :=
    .new_root (create_new_address_space_spec hnew).newRoot
  have hswitch : Edit {r | r ∉ x.roots} W ⟨s1, insert new_cr3 x.roots, x.shared⟩
      ⟨switch_address_space s1 new_cr3, insert new_cr3 x.roots, x.shared⟩ := .load rfl rfl
  have hvga :
      Edit {r | r ∉ x.roots} W ⟨switch_address_space s1 new_cr3, insert new_cr3 x.roots, x.shared⟩
        ⟨s2, insert new_cr3 x.roots, x.shared⟩ :=
    .map_shared hin hfresh (by decide) hconsole (fun _ => by decide) hm
  exact ((Relation.ReflTransGen.single hroot).tail hswitch).tail hvga |>.trans
    (load_pages_edits (x := ⟨s2, insert new_cr3 x.roots, x.shared⟩) hext.unmarked hin hfresh hpgd
      (imagePages_iff.mp himage) hsegments)

end Edits

/-- The frame with the word that a misread fault writes to. -/
def ProcOp.written (w : World) : ProcOp → Set Nat
  | .page_fault addr err => {k | Misread w.kernel.mm addr err ∧
      k = pageOf (pte_addr (middleEntry w.kernel.mm.mem (pte_addr w.kernel.mm.cr3) addr))}
  | _ => ∅

def targets (w : World) : Set (BitVec 64) := {r | r = w.kernel.mm.cr3 ∨ r ∉ w.spaces}

theorem sharedMm_eq {roots : List (BitVec 64)} (hshared : Shared k' = Shared w.kernel) :
    sharedMm ⟨k', roots⟩ = ⟨k'.mm, {r | r ∈ roots}, Shared w.kernel⟩ := by
  rw [sharedMm, hshared]
  rfl

theorem sharedMm_cons (hshared : Shared k' = Shared w.kernel) :
    sharedMm ⟨k', r :: w.roots⟩ = ⟨k'.mm, insert r w.spaces, Shared w.kernel⟩ := by
  rw [sharedMm_eq hshared, World.spaces_cons]

theorem console_shared (k : Kernel) : Shared k consolePage (pathOf 0xB8000 4) := .inl ⟨rfl, rfl⟩

theorem fault_edits {addr err : BitVec 64} (hs : Steady boot s0 w.kernel.mm w.spaces)
    (h : Spaced p0 boot w) (hb : BootTables boot s0)
    (hk : handle_page_fault w.kernel addr err = .ok k') :
    Edit (targets w) ((ProcOp.page_fault addr err).written w) (sharedMm w)
      (sharedMm { w with kernel := k' }) := by
  have hunmarked := h.settled.unmarked
  rcases handle_page_fault_cases hk with
    ⟨hstack, phys, mm1, mm2, halloc, hmap, rfl⟩ | ⟨-, hwrite, pte, e, phys, mm1, hcow,
      hmapped, halloc, rfl⟩
  · obtain ⟨hr, -, -, hlo, hhi⟩ := h.settled.stack_fault h.running hstack
    have hnew := alloc_page_new halloc
    have hT1 := hunmarked.tables.of_only hnew.only fun _ _ => Set.disjoint_empty _
    have hm := arch_map_page_spec hT1 hr (hnew.current_pgd.trans (h.settled.pgd h.running hr))
      (pathOf_user (stack_page hlo hhi).1 4) hmap
    exact .map_new (x := sharedMm w) hr (.inl rfl) (by decide) hnew hm (.refl _ _)
  · obtain ⟨hhuge, hpresent, hmark, rfl, rfl⟩ :=
      cow_entry_huge hs hunmarked hb (h.settled.home h.running)
      h.running.current_pgd hcow
    obtain ⟨huser, -⟩ := hs.word_page hunmarked hb (addr_aligned _) (index_lt _) hmark
    refine .write (x := sharedMm w) (cow_only (addr_aligned _) halloc rfl)
      (fun r hr => Set.disjoint_singleton_right.mpr (huser r hr)) ?_
    rintro _ rfl
    exact ⟨⟨by simpa [has] using hwrite, hhuge, hpresent, hmark, hmapped⟩, rfl⟩

theorem step_edits {op : ProcOp} (hi : Isolated s0 (sharedMm w))
    (hs : Steady boot s0 w.kernel.mm w.spaces) (h : Spaced p0 boot w) (hb : BootTables boot s0)
    (hop : op.Legal w) (hstep : op.step w = .ok w') :
    Edits (targets w) (op.written w) (sharedMm w) (sharedMm w') := by
  have hunmarked := h.settled.unmarked
  obtain ⟨⟨himage, hshort⟩, hby⟩ := hop
  cases effect_of_step h.running.linked hshort hstep with
  | nothing _ _ => exact .refl
  | thread hmm hnew =>
    rw [sharedMm_eq (hnew.shared h.running.linked (.inl rfl)), hmm]
    exact .refl
  | image hmem hload hnew =>
    rw [sharedMm_cons hnew.shared]
    refine edits_mono (T := {r | r ∉ w.spaces}) ?_ (fun r hr => .inr hr) subset_rfl
    exact load_image_edits (x := sharedMm w) hunmarked (h.settled.home h.running)
      (console_shared _) (himage _ hmem) hload
  | fork _ hclone hnew =>
    have hroot : pte_addr w.kernel.mm.cr3 ∈ w.spaces := (hunmarked.addr _ hby).symm ▸ hby
    have hcloned := clone_address_space_spec (hunmarked.toOwner.parent hroot) hclone
    rw [sharedMm_cons (hnew.shared h.running.linked (hasRegions_self h.running.linked.current))]
    exact .single (.new_root (x := sharedMm w) (hcloned.newRoot hunmarked.tables hroot))
  | fault hk => exact .single (fault_edits hs h hb hk)
  | @shmget phys mm halloc _ =>
    have hshared := shmget_shared phys mm h.running.linked.current
    have hnew : Edit (targets w) ∅ (sharedMm w) _ :=
      .share (pathOf (shmAddr (w.kernel.task w.kernel.current_task).shm_count) 4)
        (alloc_page_new halloc)
    rw [show (sharedMm w).shared = Shared w.kernel from rfl, ← hshared] at hnew
    exact .single hnew
  | @shmat id mm hid hmap =>
    have hcurrent := h.settled.current h.running
    obtain ⟨hv, hoff⟩ := shmAddr_page id.toNat (hid.trans_le hcurrent.shm_count)
    have hm := arch_map_page_spec hunmarked.tables hby (h.settled.pgd h.running hby)
      (pathOf_user hv 4) hmap
    have haddr : pte_addr ((w.kernel.task w.kernel.current_task).shm_pages id.toNat) =
        (w.kernel.task w.kernel.current_task).shm_pages id.toNat := (hcurrent.shm _ hid).1
    have hshared : Shared w.kernel
        (frame ((w.kernel.task w.kernel.current_task).shm_pages id.toNat))
        (pathOf (shmAddr id.toNat) 4) := by
      rw [frame, haddr]
      exact .inr ⟨_, h.running.linked.current, _, hid, rfl, rfl⟩
    refine .single (.map_shared (x := sharedMm w) hby (.inl rfl) (by decide) hshared
      (fun heq => ?_) hm)
    -- The console has another path.
    rw [heq] at hshared
    exact absurd (hi.path _ _ _ hshared (console_shared _)) hoff
  | switch hswitched =>
    obtain ⟨hmem, hpmm⟩ := hswitched.mm
    rw [sharedMm_eq hswitched.shared]
    exact .single (.load (x := sharedMm w) hmem hpmm)

/-! ## Stores of programs -/

inductive UserOp
  | call (op : ProcOp)
  /-- The program that runs stores one byte. -/
  | store (v : BitVec 64) (byte : BitVec 8)

def storeByte (s : Mm) (a : BitVec 64) (byte : BitVec 8) : Mm :=
  { s with mem := Function.update s.mem a.toNat byte }

def UserOp.step (w : World) : UserOp → Except Halt World
  | .call op => op.step w
  | .store v byte =>
    match translate w.kernel.mm.mem (pte_addr w.kernel.mm.cr3) v with
    | none => .error .no_space
    | some a => .ok (w.setMm (storeByte w.kernel.mm a byte))

/-- Stores that the hardware lets through. All others are calls of `page_fault`. -/
def UserOp.Legal (w : World) : UserOp → Prop
  | .call op => op.Legal w
  | .store v _ => w.kernel.mm.cr3 ∈ w.roots ∧ Canonical v ∧
    Permits w.kernel.mm.mem w.kernel.mm.cr3 v true true

instance (w : World) : (op : UserOp) → Decidable (op.Legal w)
  | .call op => inferInstanceAs (Decidable (op.Legal w))
  | .store v _ => inferInstanceAs (Decidable (w.kernel.mm.cr3 ∈ w.roots ∧ Canonical v ∧
      Permits w.kernel.mm.mem w.kernel.mm.cr3 v true true))

theorem store_only (s : Mm) (a : BitVec 64) (byte : BitVec 8) :
    Only {pageOf a} s (storeByte s a byte) := by
  refine ⟨Finset.Subset.refl _, fun _ hk => hk, fun k _ hk x hx => ?_, rfl, rfl⟩
  refine Function.update_of_ne (fun heq => hk ?_) _ _
  rw [heq] at hx
  exact hx.symm

/-- The states of a run of calls and stores. Page tables that were there when `s0` was, are still
there. -/
structure Orderly (p0 : Nat) (boot : BitVec 64) (s0 : Mm) (w : World) : Prop where
  spaced : Spaced p0 boot w
  steady : Steady boot s0 w.kernel.mm w.spaces
  isolated : Isolated s0 (sharedMm w)

theorem Orderly.page (h : Orderly p0 boot s0 w) (hr : r ∈ w.spaces) (hv : UserHalf v)
    (ha : translate w.kernel.mm.mem r v = some a) :
    ∃ e, PageAt (sharedMm w) r (pathOf v 3) (indexOf v 3) e ∧ a = pte_addr e ||| (v &&& 0xFFF) := by
  rw [h.spaced.settled.unmarked.tables.translate_eq hr (pathOf_user hv 4)] at ha
  split_ifs at ha with hpres
  exact ⟨_, ⟨hr, pathOf_succ_user hv 3, by simp, rfl, hpres⟩, (Option.some.inj ha).symm⟩

theorem Orderly.user_page (h : Orderly p0 boot s0 w) (hr : r ∈ w.spaces) (hv : UserHalf v)
    {write : Bool} (hmay : Permits w.kernel.mm.mem r v true write)
    (ha : translate w.kernel.mm.mem r v = some a) : pageOf a ∈ freePages s0.pmm := by
  obtain ⟨e, hpage, rfl⟩ := h.page hr hv ha
  have huser := hmay.2 3 (le_refl 3)
  rw [show slot w.kernel.mm.mem r (pathOf v 3) (indexOf v 3) = e from hpage.entry] at huser
  rw [pageOf_or]
  exact h.isolated.user _ _ _ _ hpage ((huser hpage.present).1 rfl)

def NoUserRoot (boot : BitVec 64) (s0 : Mm) : Prop :=
  ∀ i < 512, has (table_get s0.mem boot i) PTE_USER = false

theorem permits_root {m : Mem} {write : Bool} (hmay : Permits m r v true write) :
    has (table_get m r (pgd_index v)) PTE_USER = true := by
  refine (hmay.2 0 (Nat.zero_le 3) ?_).1 rfl
  by_contra hnone
  exact hmay.1 (translate_of_absent (Bool.eq_false_iff.mpr hnone))

theorem Orderly.user_half (h : Orderly p0 boot s0 w) (hroot : NoUserRoot boot s0) {write : Bool}
    (hr : r ∈ w.spaces ∨ r = boot) (hmay : Permits w.kernel.mm.mem r v true write) :
    r ∈ w.spaces ∧ UserHalf v := by
  have huser := permits_root hmay
  have hindex : pgd_index v < 512 := index_lt (v >>> 39)
  rcases hr with hr | rfl
  · refine ⟨hr, Nat.lt_of_not_le fun hge => ?_⟩
    rw [h.steady.kernel r hr _ hge hindex, hroot _ hindex] at huser
    cases huser
  · have hsame := (h.steady.tables _ boot_page).2
    rw [hsame.table_get h.spaced.settled.unmarked.boot_aligned hindex, hroot _ hindex] at huser
    cases huser

/-! ## Runs of calls and stores -/

theorem orderly_store (byte : BitVec 8) (h : Orderly p0 boot s0 w) (hb : BootTables boot s0)
    (hroot : NoUserRoot boot s0) (hcr3 : w.kernel.mm.cr3 ∈ w.roots)
    (hmay : Permits w.kernel.mm.mem w.kernel.mm.cr3 v true true)
    (ha : translate w.kernel.mm.mem w.kernel.mm.cr3 v = some a) :
    Orderly p0 boot s0 (w.setMm (storeByte w.kernel.mm a byte)) ∧
      Edit (targets w) {pageOf a} (sharedMm w)
        (sharedMm (w.setMm (storeByte w.kernel.mm a byte))) := by
  have hv := (h.user_half hroot (.inl hcr3) hmay).2
  have hfree := h.user_page hcr3 hv hmay ha
  have hunmarked := h.spaced.settled.unmarked
  have hdata : Data w.kernel.mm w.spaces (pageOf a) := hunmarked.toOwner.translate hcr3 hv ha
  -- The frame was free at the start, so it is none of the boot tables.
  have hboot : ∀ k ∈ spacePages s0.mem boot, k ≠ pageOf a := fun k hk heq =>
    not_free_of_used (hb.used k hk) (heq ▸ hfree)
  have honly := store_only w.kernel.mm a byte
  have htables : ∀ r ∈ w.spaces, Disjoint (userPages w.kernel.mm.mem r) {pageOf a} := fun r hr =>
    Set.disjoint_singleton_right.mpr fun hk => hdata.2 ⟨r, hr, hk⟩
  have hedit : Edit (targets w) {pageOf a} (sharedMm w)
      (sharedMm (w.setMm (storeByte w.kernel.mm a byte))) :=
    .write (x := sharedMm w) honly htables subset_rfl
  refine ⟨⟨⟨?_, ?_⟩, ?_, ?_⟩, hedit⟩
  · exact h.spaced.running.keep
      (h.spaced.running.linked.of_same (fun _ => rfl) rfl (Nat.le_refl _) rfl) ⟨rfl, rfl⟩ rfl rfl
      rfl rfl fun _ => Iff.rfl
  · exact h.spaced.settled.extend (hunmarked.of_data honly hdata.2 (hboot _ boot_page).symm subset_rfl)
      fun p hp => .inl ⟨hp, rfl⟩
  · exact h.steady.of_only hunmarked honly htables fun k hk => hboot k hk
  · exact h.isolated.edits (.single hedit)

def UserOp.written (w : World) : UserOp → Set Nat
  | .call op => op.written w
  | .store v _ => {k | ∃ a, translate w.kernel.mm.mem w.kernel.mm.cr3 v = some a ∧ k = pageOf a}

theorem orderly_step (op : UserOp) (h : Orderly p0 boot s0 w) (hb : BootTables boot s0)
    (hroot : NoUserRoot boot s0) (hop : op.Legal w) (hstep : op.step w = .ok w') :
    Orderly p0 boot s0 w' ∧ Edits (targets w) (op.written w) (sharedMm w) (sharedMm w') := by
  cases op with
  | call op =>
    have hedits := step_edits h.isolated h.steady h.spaced hb hop hstep
    exact ⟨⟨(spaced_step h.spaced hop hstep).1, steady_step h.steady h.spaced hb hop hstep, h.isolated.edits hedits⟩, hedits⟩
  | store v byte =>
    obtain ⟨hcr3, -, hmay⟩ := hop
    obtain ⟨a, ha⟩ := Option.ne_none_iff_exists'.mp hmay.1
    unfold UserOp.step at hstep
    dsimp only at hstep
    rw [h.spaced.settled.unmarked.addr _ hcr3, ha] at hstep
    cases hstep
    obtain ⟨hnext, hedit⟩ := orderly_store byte h hb hroot hcr3 hmay ha
    refine ⟨hnext, .single (hedit.mono subset_rfl ?_)⟩
    rintro _ rfl
    exact ⟨a, ha, rfl⟩

/-! ## The start -/

theorem mapped_no_user {V : List Nat → Prop} [PathKind V] {s s' : Mm} {virt phys flags : BitVec 64}
    (hm : MappedOn V s s' {boot} boot virt phys flags) (hflags : has flags PTE_USER = false)
    (hnil : V []) (h : NoUserRoot boot s) : NoUserRoot boot s' := by
  intro i hi
  by_cases hhere : i = indexOf virt 0
  · rw [hhere]
    rcases hm.path 0 (by omega) with ⟨-, he⟩ | ⟨-, f, -, -, he⟩
    · rw [show table_get s'.mem boot (indexOf virt 0) = _ from he, userFlag, hflags, has_or,
        show has (slot s.mem boot (pathOf virt 0) (indexOf virt 0)) PTE_USER =
          false from h _ (indexOf_lt virt 0)]
      decide
    · rw [show table_get s'.mem boot (indexOf virt 0) = _ from he, userFlag, hflags, tableEntry,
        has_or, has_or, has_or, addr_has _ _ (by decide)]
      decide
  · have hslot := hm.slots boot rfl [] i hnil (by simp) hi fun heq =>
      hhere (List.singleton_injective heq.2)
    rw [show table_get s'.mem boot i = _ from hslot]
    exact h i hi

section Boot

variable {p4 kernel_end : BitVec 64} {m : Mem} {mm : Mm} {heap_ptr : BitVec 32} {k0 : Kernel}

theorem start_no_user (h : Layout p4 m kernel_end) : NoUserRoot p4 (start_mm p4 m kernel_end) := by
  intro i hi
  have hentry := h.get_start (n := 0) (by omega) hi
  rw [boot_table_zero] at hentry
  rw [start_mm_mem]
  rcases hentry with ⟨j, hj, -, he⟩ | ⟨hhuge, -⟩ | he
  · rw [he, has_or, ← h.addr_table hj, addr_has _ _ (by decide)]
    decide
  · unfold HugeAt at hhuge
    omega
  · rw [he, zero_has]

theorem init_no_user (h : Layout p4 m kernel_end)
    (hinit : arch_paging_init (start_mm p4 m kernel_end) = .ok mm) : NoUserRoot p4 mm := by
  have haddr := h.addr_table (n := 0) (by omega)
  rw [boot_table_zero] at haddr
  have hroot : pte_addr (start_mm p4 m kernel_end).cr3 = p4 := by rw [Paging.start_mm_cr3, haddr]
  have hno := start_no_user h
  have hT := h.forest
  generalize start_mm p4 m kernel_end = s at *
  unfold arch_paging_init at hinit
  rw [hroot] at hinit
  obtain ⟨s1, h1, h2⟩ := bind_ok.mp hinit
  have hT0 : Forest SmallPath { s with current_pgd := some p4 } {p4} :=
    hT.of_mem rfl fun _ _ _ _ hk => hk
  have hnil : SmallPath [] := by simp [SmallPath]
  have hm1 := arch_map_page_spec hT0 rfl rfl (Vmalloc.WindowKind.window 0 (by decide)) h1
  have hm2 := arch_map_page_spec hm1.tables rfl hm1.only.current_pgd
    (Vmalloc.WindowKind.window 1 (by decide)) h2
  exact mapped_no_user hm2 (by decide) hnil (mapped_no_user hm1 (by decide) hnil hno)

theorem start_shared {s : Mm} (mm : Mm) (hstarted : Started s heap_ptr k0) {f : Nat} {path : List Nat}
    (hs : Shared { k0 with mm := mm } f path) : f = consolePage ∧ path = pathOf 0xB8000 4 := by
  rcases hs with hconsole | ⟨p, hp, id, hid, -⟩
  · exact hconsole
  · have hfirst : p = k0.current_task := List.mem_singleton.mp (hstarted.task_structs ▸ hp)
    have hcount : (k0.task k0.current_task).shm_count = 0 :=
      (congrArg TaskMemory.shm_count hstarted.new :)
    rw [hfirst, show (Kernel.task { k0 with mm := mm } k0.current_task).shm_count = 0 from hcount]
      at hid
    omega

variable (hlayout : Layout p4 m kernel_end) (hinit :
  sched_init (Kernel.boot (start_mm p4 m kernel_end) heap_ptr) = .ok k0)
  (hpaging : arch_paging_init k0.mm = .ok mm)

include hlayout hinit hpaging

theorem start_isolated : Isolated mm (sharedMm ⟨{ k0 with mm := mm }, []⟩) := by
  have hstarted := sched_init_started hinit
  rw [hstarted.mm_eq] at hpaging
  have howner := (boot_unmarked hlayout hpaging).toOwner
  have hspaces : World.spaces ⟨{ k0 with mm := mm }, []⟩ = ∅ := by simp [World.spaces]
  have hnone : ∀ r p i e, ¬ PageAt (sharedMm ⟨{ k0 with mm := mm }, []⟩) r p i e := by
    intro r p i e hpage
    have hr : r ∈ World.spaces ⟨{ k0 with mm := mm }, []⟩ := hpage.root
    rw [hspaces] at hr
    exact hr
  refine ⟨?_, Finset.Subset.refl _, fun f path hs => ?_, fun f path path' hs hs' => ?_,
    fun f path hs => ?_, fun r p i e hpage => absurd hpage (hnone r p i e),
    fun r p i e _ _ _ _ hpage => absurd hpage (hnone r p i e),
    fun r p i e hpage => absurd hpage (hnone r p i e)⟩
  · rw [sharedMm, hspaces]
    exact howner
  · rw [(start_shared mm hstarted hs).1, sharedMm, hspaces]
    exact howner.console
  · rw [(start_shared mm hstarted hs).2, (start_shared mm hstarted hs').2]
  · exact .inl (start_shared mm hstarted hs).1

theorem orderly_start :
    Orderly k0.current_task p4 mm ⟨{ k0 with mm := mm }, []⟩ ∧ BootTables p4 mm ∧
      NoUserRoot p4 mm := by
  have hnorun : run (guarded (fun w op => op.Legal w) .no_space ProcOp.step)
      ⟨{ k0 with mm := mm }, []⟩ [] =
      .ok ⟨{ k0 with mm := mm }, []⟩ := rfl
  obtain ⟨hspaced, hsteady, hb⟩ := steady_run hlayout hinit hpaging hnorun
  have hisolated := start_isolated hlayout hinit hpaging
  rw [(sched_init_started hinit).mm_eq] at hpaging
  exact ⟨⟨hspaced, hsteady, hisolated⟩, hb, init_no_user hlayout hpaging⟩

theorem orderly_run {ops : List UserOp}
    (hrun : run (guarded (fun w op => op.Legal w) .no_space UserOp.step)
      ⟨{ k0 with mm := mm }, []⟩ ops = .ok w) : Orderly k0.current_task p4 mm w := by
  obtain ⟨hstart, hb, hroot⟩ := orderly_start hlayout hinit hpaging
  have hstep : ∀ op ∈ ops, ∀ w w' : World, Orderly k0.current_task p4 mm w →
      guarded (fun w (op : UserOp) => op.Legal w) Halt.no_space UserOp.step w op = .ok w' →
      Orderly k0.current_task p4 mm w' := by
    intro op _ w w' h hstep
    obtain ⟨hlegal, hstep⟩ := guarded_ok.mp hstep
    exact (orderly_step op h hb hroot hlegal hstep).1
  exact run_inv _ hstep hstart hrun

end Boot

/-! ## Two small programs -/

theorem load_image_fresh {s s' : Mm} {elf_data : Mem} {new_cr3 : BitVec 64}
    (hload : load_image s elf_data = .ok (new_cr3, s')) : pageOf new_cr3 ∈ freePages s.pmm := by
  obtain ⟨s1, s2, hnew, hmap, hsegments⟩ := load_image_ok hload
  exact (create_new_address_space_spec hnew).was_free

theorem page_fault_legal (w : World) (addr err : BitVec 64) : (ProcOp.page_fault addr err).Legal w :=
  ⟨⟨by simp [ProcOp.image], trivial⟩, trivial⟩

/-- A program is loaded and pushes its first word. Its memory is apart from what was there. -/
structure FirstPush (w w1 w2 : World) : Prop where
  exec : (ProcOp.exec_user_program selfImage).step w = .ok w1
  push : (ProcOp.page_fault 0x3FFFFFE8 6).step w1 = .ok w2
  roots1 : w1.roots = w1.kernel.mm.cr3 :: w.roots
  roots2 : w2.roots = w1.roots
  cr3 : w2.kernel.mm.cr3 = w1.kernel.mm.cr3
  fresh : pageOf w1.kernel.mm.cr3 ∈ freePages w.kernel.mm.pmm
  kept : ∀ r ∈ w.spaces, ∀ p i, UserPath p → p.length ≤ 3 → i < 512 →
    slot w1.kernel.mm.mem r p i = slot w.kernel.mm.mem r p i
  shared1 : Shared w1.kernel = Shared w.kernel
  shared2 : Shared w2.kernel = Shared w.kernel
  right : ¬ Misread w1.kernel.mm 0x3FFFFFE8 6
  permits : Permits w2.kernel.mm.mem w2.kernel.mm.cr3 0x3FFFFFE8 true true

theorem first_push {n : Nat} (h : Orderly p0 boot s0 w) (hb : BootTables boot s0)
    (hroot : NoUserRoot boot s0) (hpool : Pool (n + 12) w.kernel.mm) :
    ∃ w1 w2, FirstPush w w1 w2 ∧ Orderly p0 boot s0 w1 ∧ Orderly p0 boot s0 w2 ∧
      Pool n w2.kernel.mm := by
  obtain ⟨new_cr3, mm1, hload, hpool1, hexec⟩ :=
    step_selfImage (k := w.kernel) (n := n + 4) hpool w.roots
  obtain ⟨w1, hw1⟩ : ∃ w1, w1 = (⟨Kernel.update_task { w.kernel with mm := mm1 } w.kernel.current_task
    fun t => t.set_image new_cr3, mm1.cr3 :: w.roots⟩ : World) := ⟨_, rfl⟩
  rw [← hw1] at hexec
  have hmm1 : w1.kernel.mm = mm1 := by rw [hw1]; rfl
  have hcr3 : mm1.cr3 = new_cr3 := (load_image_root hload).1
  have hroots1 : w1.roots = w1.kernel.mm.cr3 :: w.roots := by rw [hw1]; rfl
  have hprocess : w1.kernel.mm.cr3 ∈ w1.roots := by rw [hroots1]; exact List.mem_cons_self
  obtain ⟨h1, -⟩ := orderly_step (.call (.exec_user_program selfImage)) h hb hroot
    (selfImage_keeps w).1 hexec
  obtain ⟨hstart, hend⟩ := exec_stack h.spaced hexec (by rw [hroots1]; exact List.cons_ne_self _ _)
  have hself : pte_addr w1.kernel.mm.cr3 = w1.kernel.mm.cr3 :=
    h1.spaced.settled.unmarked.addr _ hprocess
  have hstack : stack_fault w1.kernel 0x3FFFFFE8 6 = true := by
    unfold stack_fault
    dsimp only
    rw [hstart, hend]
    decide
  obtain ⟨phys, s1, halloc, hpool2⟩ := alloc_page_pool (n := n + 3) (s := w1.kernel.mm) (hmm1 ▸ hpool1)
  obtain ⟨s2, hmap, hpool3⟩ := arch_map_page_pool hpool2 (0x3FFFFFE8 &&& PAGE_MASK) phys
    (PTE_WRITABLE ||| PTE_USER)
  have hk : handle_page_fault w1.kernel 0x3FFFFFE8 6 = .ok { w1.kernel with mm := s2 } := by
    unfold handle_page_fault
    rw [if_pos hstack]
    exact bind_ok.mpr ⟨_, halloc, bind_ok.mpr ⟨_, hmap, rfl⟩⟩
  have hpush : (ProcOp.page_fault 0x3FFFFFE8 6).step w1 =
      .ok { w1 with kernel := { w1.kernel with mm := s2 } } := bind_ok.mpr ⟨_, hk, rfl⟩
  obtain ⟨h2, -⟩ := orderly_step (.call (.page_fault 0x3FFFFFE8 6)) h1 hb hroot
    (page_fault_legal w1 _ _) hpush
  have hcr3' : s2.cr3 = w1.kernel.mm.cr3 := (arch_map_page_root hmap).1.trans (alloc_page_root halloc).1
  have hshared : Shared w1.kernel = Shared w.kernel := by
    rw [hw1]
    exact Replaced.shared (.of_task h.spaced.running.linked (Nat.le_refl _) rfl rfl rfl)
  refine ⟨w1, _, ⟨hexec, hpush, hroots1, rfl, hcr3', ?_, fun r hr p i hp hn hi => ?_, hshared, hshared, ?_, ?_⟩, h1, h2, hpool3⟩
  · rw [hmm1, hcr3]
    exact load_image_fresh hload
  · have hedits := load_image_edits (x := sharedMm w) (W := ∅) h.spaced.settled.unmarked
      (h.spaced.settled.home h.spaced.running)
      (console_shared _) (selfImage_pages (by decide)) hload
    rw [hmm1]
    exact (h.isolated.untouched hedits).slots r hr (fun hnew => hnew hr) p i hp hn hi
  · rintro ⟨-, hhuge, -⟩
    rw [hself] at hhuge
    exact h1.spaced.settled.unmarked.tables.not_huge hprocess (pathOf_user (by decide) 4) hhuge
  · have hpermits := (stack_repaired h1.steady h1.spaced hb hk hstack).permits
    rw [show pte_addr s2.cr3 = s2.cr3 by rw [hcr3', hself]] at hpermits
    exact hpermits

theorem FirstPush.process {w1 w2 : World} (h : FirstPush w w1 w2) : w2.kernel.mm.cr3 ∈ w2.roots := by
  rw [h.roots2, h.roots1, h.cr3]
  exact List.mem_cons_self

theorem FirstPush.run_exec {w1 w2 : World} (h : FirstPush w w1 w2) :
    guarded (fun w (op : UserOp) => op.Legal w) .no_space UserOp.step w
      (.call (.exec_user_program selfImage)) = .ok w1 :=
  guarded_ok.mpr ⟨(selfImage_keeps w).1, h.exec⟩

theorem FirstPush.run_push {w1 w2 : World} (h : FirstPush w w1 w2) :
    guarded (fun w (op : UserOp) => op.Legal w) .no_space UserOp.step w1
      (.call (.page_fault 0x3FFFFFE8 6)) = .ok w2 :=
  guarded_ok.mpr ⟨page_fault_legal w1 _ _, h.push⟩

theorem small_push : ∃ k0 mm w1 w2, sched_init (Kernel.boot bootMm 0) = .ok k0 ∧ arch_paging_init k0.mm = .ok mm ∧
    FirstPush ⟨{ k0 with mm := mm }, []⟩ w1 w2 ∧
    run (guarded (fun w op => op.Legal w) .no_space UserOp.step) ⟨{ k0 with mm := mm }, []⟩
      [.call (.exec_user_program selfImage), .call (.page_fault 0x3FFFFFE8 6)] = .ok w2 ∧
    Pool 12 w2.kernel.mm ∧ Started bootMm 0 k0 := by
  obtain ⟨k0, mm, hinit, hstarted, hpaging, hpool⟩ := small_start
  obtain ⟨hstart, hb, hroot⟩ := orderly_start Vmalloc.small_layout hinit hpaging
  obtain ⟨w1, w2, hpush, -, -, hpool2⟩ := first_push (n := 12) hstart hb hroot (hpool.le (by decide))
  exact ⟨k0, mm, w1, w2, hinit, hpaging, hpush,
    bind_ok.mpr ⟨w1, hpush.run_exec, bind_ok.mpr ⟨w2, hpush.run_push, rfl⟩⟩, hpool2, hstarted⟩

structure SecondPush (k0 : Kernel) (mm : Mm) (w1 w2 w3 w4 : World) : Prop where
  first : FirstPush ⟨{ k0 with mm := mm }, []⟩ w1 w2
  second : FirstPush w2 w3 w4
  run : run (guarded (fun w op => op.Legal w) .no_space UserOp.step) ⟨{ k0 with mm := mm }, []⟩
    [.call (.exec_user_program selfImage), .call (.page_fault 0x3FFFFFE8 6),
      .call (.exec_user_program selfImage)] = .ok w3
  orderly2 : Orderly k0.current_task 0x110000 mm w2
  orderly3 : Orderly k0.current_task 0x110000 mm w3
  orderly4 : Orderly k0.current_task 0x110000 mm w4
  old : w2.kernel.mm.cr3 ∈ w3.spaces
  apart : w3.kernel.mm.cr3 ≠ w2.kernel.mm.cr3

theorem second_push : ∃ k0 mm w1 w2 w3 w4, sched_init (Kernel.boot bootMm 0) = .ok k0 ∧
    arch_paging_init k0.mm = .ok mm ∧ Started bootMm 0 k0 ∧ SecondPush k0 mm w1 w2 w3 w4 := by
  obtain ⟨k0, mm, w1, w2, hinit, hpaging, hpush, hrun, hpool, hstarted⟩ := small_push
  obtain ⟨-, hb, hroot⟩ := orderly_start Vmalloc.small_layout hinit hpaging
  have h2 := orderly_run Vmalloc.small_layout hinit hpaging hrun
  obtain ⟨w3, w4, hpush', h3, h4, -⟩ := first_push (n := 0) h2 hb hroot hpool
  have hmem : w2.kernel.mm.cr3 ∈ w2.spaces := hpush.process
  have hold : w2.kernel.mm.cr3 ∈ w3.spaces := by
    rw [World.spaces, hpush'.roots1]
    exact List.mem_cons_of_mem _ hmem
  have hne : w3.kernel.mm.cr3 ≠ w2.kernel.mm.cr3 := fun heq =>
    h2.isolated.tables.not_free hmem (p := []) trivial (by simp) rfl (heq ▸ hpush'.fresh)
  exact ⟨k0, mm, w1, w2, w3, w4, hinit, hpaging, hstarted, hpush, hpush',
    bind_ok.mpr ⟨w1, hpush.run_exec, bind_ok.mpr
      ⟨w2, hpush.run_push, bind_ok.mpr ⟨w3, hpush'.run_exec, rfl⟩⟩⟩,
    h2, h3, h4, hold, hne⟩

section Programs

variable {p4 kernel_end : BitVec 64} {m : Mem} {mm : Mm} {heap_ptr : BitVec 32} {k0 : Kernel}
  {ops : List UserOp}

/-! ## What programs reach -/

/-- The addresses that ring 3 may use lie in the user half of a space, and lead to frames that
the kernel did not have when it started and that hold no page table. -/
theorem programs_reach_no_kernel_frame (hlayout : Layout p4 m kernel_end)
    (hinit : sched_init (Kernel.boot (start_mm p4 m kernel_end) heap_ptr) = .ok k0)
    (hpaging : arch_paging_init k0.mm = .ok mm)
    (hrun : run (guarded (fun w op => op.Legal w) .no_space UserOp.step)
      ⟨{ k0 with mm := mm }, []⟩ ops = .ok w) {write : Bool} (hr : r ∈ w.spaces ∨ r = p4)
    (hmay : Permits w.kernel.mm.mem r v true write) :
    r ∈ w.spaces ∧ UserHalf v ∧ ∃ a, translate w.kernel.mm.mem r v = some a ∧
      pageOf a ∈ freePages mm.pmm ∧
      w.kernel.mm.pmm.page_used (pageOf a) = true ∧ ∀ t, UserTable w.kernel.mm w.spaces t →
        pageOf a ≠ pageOf t := by
  have h := orderly_run hlayout hinit hpaging hrun
  obtain ⟨-, -, hroot⟩ := orderly_start hlayout hinit hpaging
  obtain ⟨hspace, hv⟩ := h.user_half hroot hr hmay
  obtain ⟨a, ha⟩ := Option.ne_none_iff_exists'.mp hmay.1
  have hdata := h.spaced.settled.unmarked.toOwner.translate hspace hv ha
  exact ⟨hspace, hv, a, ha, h.user_page hspace hv hmay ha, hdata.1, fun t ht => hdata.ne_table ht⟩

/-- The word below the start of the stack. -/
theorem first_push_reaches_no_kernel_frame : ∃ k0 mm w a, sched_init (Kernel.boot bootMm 0) = .ok k0 ∧
    arch_paging_init k0.mm = .ok mm ∧
    run (guarded (fun w op => op.Legal w) .no_space UserOp.step) ⟨{ k0 with mm := mm }, []⟩
      [.call (.exec_user_program selfImage), .call (.page_fault 0x3FFFFFE8 6)] = .ok w ∧
    Permits w.kernel.mm.mem w.kernel.mm.cr3 0x3FFFFFE8 true true ∧
    translate w.kernel.mm.mem w.kernel.mm.cr3 0x3FFFFFE8 = some a ∧ pageOf a ∈ freePages mm.pmm := by
  obtain ⟨k0, mm, w1, w2, hinit, hpaging, hpush, hrun, -⟩ := small_push
  have hspace : w2.kernel.mm.cr3 ∈ w2.spaces ∨ w2.kernel.mm.cr3 = 0x110000 := .inl hpush.process
  obtain ⟨-, -, a, ha, hfree, -⟩ := programs_reach_no_kernel_frame Vmalloc.small_layout hinit
    hpaging hrun hspace hpush.permits
  exact ⟨k0, mm, w2, a, hinit, hpaging, hrun, hpush.permits, ha, hfree⟩

/-! ## Pages of two programs -/

/-- Two pages with one frame stand at the same address. They are one page, or the frame is the
console or a region of a task. -/
theorem Orderly.one_frame {r1 r2 v1 v2 a1 a2 : BitVec 64} (h : Orderly p0 boot s0 w)
    (h1 : r1 ∈ w.spaces) (h2 : r2 ∈ w.spaces) (hv1 : UserHalf v1) (hv2 : UserHalf v2)
    (ha1 : translate w.kernel.mm.mem r1 v1 = some a1)
    (ha2 : translate w.kernel.mm.mem r2 v2 = some a2) (hsame : pageOf a2 = pageOf a1) :
    pathOf v1 4 = pathOf v2 4 ∧ (r1 = r2 ∨ Shared w.kernel (pageOf a1) (pathOf v1 4)) := by
  obtain ⟨e1, hpage1, rfl⟩ := h.page h1 hv1 ha1
  obtain ⟨e2, hpage2, rfl⟩ := h.page h2 hv2 ha2
  rw [pageOf_or, pageOf_or] at hsame
  rw [pageOf_or]
  rcases h.isolated.alone _ _ _ _ _ _ _ _ hpage1 hpage2 hsame with ⟨hroot, hpath, hindex⟩ | ⟨path, hs⟩
  · refine ⟨?_, .inl hroot.symm⟩
    rw [pathOf_succ v1 3, pathOf_succ v2 3, hpath, hindex]
  · have hpath1 := h.isolated.place _ _ _ _ hpage1 path hs
    have hpath2 := h.isolated.place _ _ _ _ hpage2 path
      (by rw [show frame e2 = frame e1 from hsame]; exact hs)
    rw [← pathOf_succ] at hpath1 hpath2
    exact ⟨hpath1.symm.trans hpath2, .inr (hpath1 ▸ hs)⟩

/-- Two programs have a frame in common only if it is the console, or a page of shared memory that
stands at the address of its number in both. -/
theorem programs_share_only_regions (hlayout : Layout p4 m kernel_end)
    (hinit : sched_init (Kernel.boot (start_mm p4 m kernel_end) heap_ptr) = .ok k0)
    (hpaging : arch_paging_init k0.mm = .ok mm)
    (hrun : run (guarded (fun w op => op.Legal w) .no_space UserOp.step)
      ⟨{ k0 with mm := mm }, []⟩ ops = .ok w) {r1 r2 v1 v2 a1 a2 : BitVec 64} (h1 : r1 ∈ w.spaces)
    (h2 : r2 ∈ w.spaces) (hv1 : UserHalf v1) (hv2 : UserHalf v2)
    (ha1 : translate w.kernel.mm.mem r1 v1 = some a1)
    (ha2 : translate w.kernel.mm.mem r2 v2 = some a2) (hsame : pageOf a2 = pageOf a1) :
    pageNumber v1 = pageNumber v2 ∧ (r1 = r2 ∨ (pageOf a1 = consolePage ∧ pageNumber v1 = 0xB8) ∨
      ∃ p ∈ w.kernel.task_structs, ∃ id < (w.kernel.task p).shm_count,
        pageOf a1 = pageOf ((w.kernel.task p).shm_pages id) ∧
          pageNumber v1 = pageNumber (shmAddr id)) := by
  obtain ⟨hpath, hcommon⟩ := (orderly_run hlayout hinit hpaging hrun).one_frame h1 h2 hv1
    hv2 ha1 ha2 hsame
  refine ⟨pageNumber_eq_iff.mpr hpath, hcommon.imp_right ?_⟩
  rintro (⟨hframe, hconsole⟩ | ⟨p, hp, id, hid, hframe, hregion⟩)
  · exact .inl ⟨hframe, pageNumber_eq_iff.mpr hconsole⟩
  · exact .inr ⟨p, hp, id, hid, hframe, pageNumber_eq_iff.mpr hregion⟩

/-- A program is loaded after another one, and both have the console. -/
theorem two_programs_share_console : ∃ k0 mm w r1 r2, sched_init (Kernel.boot bootMm 0) = .ok k0 ∧
    arch_paging_init k0.mm = .ok mm ∧
    run (guarded (fun w op => op.Legal w) .no_space UserOp.step) ⟨{ k0 with mm := mm }, []⟩
      [.call (.exec_user_program selfImage), .call (.page_fault 0x3FFFFFE8 6),
        .call (.exec_user_program selfImage)] = .ok w ∧
    r1 ∈ w.spaces ∧ r2 ∈ w.spaces ∧ r1 ≠ r2 ∧
    translate w.kernel.mm.mem r1 0xB8000 = some 0xB8000 ∧
    translate w.kernel.mm.mem r2 0xB8000 = some 0xB8000 ∧
    ((pageOf 0xB8000 = consolePage ∧ pageNumber 0xB8000 = 0xB8) ∨
      ∃ p ∈ w.kernel.task_structs, ∃ id < (w.kernel.task p).shm_count,
        pageOf 0xB8000 = pageOf ((w.kernel.task p).shm_pages id) ∧
          pageNumber 0xB8000 = pageNumber (shmAddr id)) := by
  obtain ⟨k0, mm, w1, w2, w3, w4, hinit, hpaging, -, h⟩ := second_push
  have h0 := spaced_start Vmalloc.small_layout hinit hpaging
  obtain ⟨hlegal, hkeeps⟩ := selfImage_keeps ⟨{ k0 with mm := mm }, []⟩
  have hconsole1 := consoles_step h0 (fun r hr => absurd hr List.not_mem_nil) hlegal hkeeps h.first.exec
  have h1 := (spaced_step h0 hlegal h.first.exec).1
  have hconsole2 := consoles_step h1 hconsole1 (page_fault_legal _ _ _)
    ⟨by simp [ProcOp.image], trivial⟩ h.first.push
  have hconsole3 := consoles_step h.orderly2.spaced hconsole2 (selfImage_keeps _).1
    (selfImage_keeps _).2 h.second.exec
  have hnew : w3.kernel.mm.cr3 ∈ w3.spaces := by
    rw [World.spaces, h.second.roots1]
    exact List.mem_cons_self
  have howner := h.orderly3.spaced.settled.unmarked.toOwner
  have hold := translate_console howner h.old (hconsole3 _ h.old)
  have hboth := translate_console howner hnew (hconsole3 _ hnew)
  have hshare :=
    (programs_share_only_regions Vmalloc.small_layout hinit hpaging h.run hnew h.old
    (by decide) (by decide) hboth hold rfl).2
  exact ⟨k0, mm, w3, _, _, hinit, hpaging, h.run, hnew, h.old, h.apart, hboth, hold,
    hshare.resolve_left h.apart⟩

/-! ## A page while its program waits -/

/-- Faults that the handler takes for what they are. -/
def UserOp.ReadRight (w : World) : UserOp → Prop
  | .call (.page_fault addr err) => ¬ Misread w.kernel.mm addr err
  | _ => True

def UserOp.Away (r : BitVec 64) (w : World) (op : UserOp) : Prop :=
  op.Legal w ∧ w.kernel.mm.cr3 ≠ r ∧ op.ReadRight w

instance (s : Mm) (addr err : BitVec 64) : Decidable (Misread s addr err) :=
  inferInstanceAs (Decidable (_ ∧ _ ∧ _ ∧ _ ∧ _))

instance (w : World) : (op : UserOp) → Decidable (op.ReadRight w)
  | .call (.page_fault addr err) => inferInstanceAs (Decidable (¬ Misread w.kernel.mm addr err))
  | .call (.kernel_thread ..) | .call (.exec_user_program _) | .call
    (.sys_execve ..) | .call (.sys_fork _)
  | .call .sys_shmget | .call (.sys_shmat _) | .call .schedule | .store .. => isTrue trivial

instance (r : BitVec 64) (w : World) (op : UserOp) : Decidable (op.Away r w) :=
  inferInstanceAs (Decidable (_ ∧ _ ∧ _))

theorem written_call {op : ProcOp} {f : Nat} (hread : (UserOp.call op).ReadRight w) :
    f ∉ op.written w := by
  cases op with
  | page_fault addr err => exact fun hf => hread hf.1
  | _ => exact Set.notMem_empty f

def PrivatePage (w : World) (r v e : BitVec 64) : Prop :=
  PageAt (sharedMm w) r (pathOf v 3) (indexOf v 3) e ∧ ¬ ∃ path, Shared w.kernel (frame e) path

theorem PrivatePage.not_written {op : UserOp} {e : BitVec 64} (h : Orderly p0 boot s0 w)
    (hroot : NoUserRoot boot s0) (hpage : PrivatePage w r v e) (hop : op.Away r w) :
    frame e ∉ op.written w := by
  obtain ⟨hlegal, hne, hread⟩ := hop
  cases op with
  | call op => exact written_call hread
  | store v' byte =>
    rintro ⟨a, ha, hframe⟩
    obtain ⟨hcr3, -, hmay⟩ := hlegal
    obtain ⟨e', hpage', rfl⟩ := h.page hcr3 (h.user_half hroot (.inl hcr3) hmay).2 ha
    rw [pageOf_or] at hframe
    rcases h.isolated.alone _ _ _ _ _ _ _ _ hpage.1 hpage' hframe.symm with ⟨heq, -⟩ | hshared
    · exact hne heq
    · exact hpage.2 hshared

theorem PrivatePage.step {op : UserOp} {e : BitVec 64} (h : Orderly p0 boot s0 w)
    (hb : BootTables boot s0) (hroot : NoUserRoot boot s0) (hpage : PrivatePage w r v e)
    (hop : op.Away r w) (hstep : op.step w = .ok w') :
    PrivatePage w' r v e ∧ SamePage w.kernel.mm.mem w'.kernel.mm.mem (frame e) := by
  have hkept := h.isolated.untouched (orderly_step op h hb hroot hop.1 hstep).2
  have hdata := hpage.1.data h.isolated.toOwner
  have htarget : r ∉ targets w := fun ht => ht.elim (fun heq => hop.2.1 heq.symm) fun hnew =>
    hnew hpage.1.root
  refine ⟨⟨hpage.1.of_slot (hkept.roots hpage.1.root) ?_, ?_⟩,
    hkept.same _ hdata (hpage.not_written h hroot hop)⟩
  · exact (hkept.slots r hpage.1.root htarget _ _ hpage.1.user.init hpage.1.length.le
      hpage.1.user.last_lt).symm
  · rintro ⟨path, hs⟩
    exact hpage.2 ⟨path, hkept.shared _ _ hdata hs⟩

/-- While other programs run, a page of a program that is in no region keeps its frame and its bytes. -/
theorem private_page_kept (hlayout : Layout p4 m kernel_end)
    (hinit : sched_init (Kernel.boot (start_mm p4 m kernel_end) heap_ptr) = .ok k0)
    (hpaging : arch_paging_init k0.mm = .ok mm)
    (hrun : run (guarded (fun w op => op.Legal w) .no_space UserOp.step)
      ⟨{ k0 with mm := mm }, []⟩ ops = .ok w) {others : List UserOp}
    (hothers : run (guarded (fun w op => op.Away r w) .no_space UserOp.step) w others = .ok w')
    (hr : r ∈ w.spaces) (hv : UserHalf v) (ha : translate w.kernel.mm.mem r v = some a)
    (hprivate : ¬ ∃ path, Shared w.kernel (pageOf a) path) :
    translate w'.kernel.mm.mem r v = some a ∧
      byteAt w'.kernel.mm.mem r v = byteAt w.kernel.mm.mem r v := by
  obtain ⟨-, hb, hroot⟩ := orderly_start hlayout hinit hpaging
  have h := orderly_run hlayout hinit hpaging hrun
  obtain ⟨e, hpage, rfl⟩ := h.page hr hv ha
  rw [pageOf_or] at hprivate
  have hstep : ∀ op ∈ others, ∀ w1 w2 : World,
      Orderly k0.current_task p4 mm w1 ∧ PrivatePage w1 r v e ∧
      SamePage w.kernel.mm.mem w1.kernel.mm.mem (frame e) →
      guarded (fun w (op : UserOp) => op.Away r w) Halt.no_space UserOp.step w1 op = .ok w2 →
      Orderly k0.current_task p4 mm w2 ∧ PrivatePage w2 r v e ∧
        SamePage w.kernel.mm.mem w2.kernel.mm.mem (frame e) := by
    rintro op - w1 w2 ⟨h1, hpage1, hsame1⟩ hstep
    obtain ⟨hop, hstep⟩ := guarded_ok.mp hstep
    obtain ⟨hpage2, hsame2⟩ := hpage1.step h1 hb hroot hop hstep
    exact ⟨(orderly_step op h1 hb hroot hop.1 hstep).1, hpage2, hsame1.trans hsame2⟩
  obtain ⟨h', ⟨hpage', -⟩, hsame⟩ := run_inv _ hstep ⟨h, ⟨hpage, hprivate⟩, fun _ _ => rfl⟩ hothers
  have ha' : translate w'.kernel.mm.mem r v = some (pte_addr e ||| (v &&& 0xFFF)) := by
    rw [h'.spaced.settled.unmarked.tables.translate_eq hpage'.root (pathOf_user hv 4),
      show slot w'.kernel.mm.mem r (pathOf v 3) (indexOf v 3) = e from hpage'.entry,
        if_pos hpage'.present]
  refine ⟨ha', ?_⟩
  unfold byteAt
  rw [ha', ha, Option.map_some, Option.map_some, hsame _ (pageOf_or _ _)]

/-- A second program pushes and stores where the first one has its stack. -/
theorem second_program_keeps_first : ∃ k0 mm w w' r a, sched_init (Kernel.boot bootMm 0) = .ok k0 ∧
    arch_paging_init k0.mm = .ok mm ∧
    run (guarded (fun w op => op.Legal w) .no_space UserOp.step) ⟨{ k0 with mm := mm }, []⟩
      [.call (.exec_user_program selfImage), .call (.page_fault 0x3FFFFFE8 6),
        .call (.exec_user_program selfImage)] = .ok w ∧
    run (guarded (fun w op => op.Away r w) .no_space UserOp.step) w
      [.call (.page_fault 0x3FFFFFE8 6), .store 0x3FFFFFE8 1] = .ok w' ∧
    r ∈ w.spaces ∧ translate w.kernel.mm.mem r 0x3FFFFFE8 = some a ∧
    byteAt w'.kernel.mm.mem r 0x3FFFFFE8 = byteAt w.kernel.mm.mem r 0x3FFFFFE8 := by
  obtain ⟨k0, mm, w1, w2, w3, w4, hinit, hpaging, hstarted, hpush, hpush', hrun3, h2, h3, h4, hr,
      hne⟩ := second_push
  have hmem : w2.kernel.mm.cr3 ∈ w2.spaces := hpush.process
  obtain ⟨a, ha⟩ := Option.ne_none_iff_exists'.mp hpush.permits.1
  have hv : UserHalf 0x3FFFFFE8 := by decide
  have ha3 : translate w3.kernel.mm.mem w2.kernel.mm.cr3 0x3FFFFFE8 = some a := by
    rw [h3.spaced.settled.unmarked.tables.translate_eq hr (pathOf_user hv 4),
      hpush'.kept _ hmem _ _ (pathOf_user hv 3) (by simp) (indexOf_lt _ 3),
      ← h2.spaced.settled.unmarked.tables.translate_eq hmem (pathOf_user hv 4), ha]
  have hprivate : ¬ ∃ path, Shared w3.kernel (pageOf a) path := by
    rintro ⟨path, hs⟩
    rw [hpush'.shared1, hpush.shared2] at hs
    have hfree := h2.user_page hmem hv hpush.permits ha
    rw [(start_shared mm hstarted hs).1] at hfree
    have hconsole := (orderly_start Vmalloc.small_layout hinit hpaging).1.isolated.console.1
    exact not_free_of_used hconsole hfree
  obtain ⟨b, hb4⟩ := Option.ne_none_iff_exists'.mp hpush'.permits.1
  have hself : pte_addr w4.kernel.mm.cr3 = w4.kernel.mm.cr3 :=
    h4.spaced.settled.unmarked.addr _ hpush'.process
  have hothers : run (guarded (fun w op => op.Away w2.kernel.mm.cr3 w) .no_space UserOp.step) w3
      [.call (.page_fault 0x3FFFFFE8 6), .store 0x3FFFFFE8 1] =
        .ok (w4.setMm (storeByte w4.kernel.mm b 1)) := by
    refine bind_ok.mpr ⟨w4, guarded_ok.mpr ⟨⟨page_fault_legal _ _ _, hne, hpush'.right⟩, hpush'.push⟩,
      bind_ok.mpr ⟨_, guarded_ok.mpr ⟨⟨⟨hpush'.process, .inl (by decide), hpush'.permits⟩, ?_, trivial⟩, ?_⟩, rfl⟩⟩
    · rw [hpush'.cr3]
      exact hne
    · unfold UserOp.step
      dsimp only
      rw [hself, hb4]
  exact ⟨k0, mm, w3, _, _, a, hinit, hpaging, hrun3, hothers, hr, ha3,
    (private_page_kept Vmalloc.small_layout hinit hpaging hrun3 hothers hr hv ha3 hprivate).2⟩

end Programs

end Relis.Process
