import Relis.Code.Ipc
import Relis.Code.Memory
import Relis.Paging.Clone
import Relis.Paging.Refine

/-!
# Who owns a frame

A frame that is in use holds a table of one address space, or data. Calls map only data.
-/

open Relis.Bytes Relis.Run Relis.Code Relis.PageAlloc

namespace Relis.Paging

variable {s s' : Mm} {roots roots' : Set (BitVec 64)} {r new : BitVec 64} {k : Nat}
  {flags phys virt : BitVec 64} {mm : Mm} {k' : Kernel}

/-! ## Tables and data -/

def tablePages (m : Mem) (roots : Set (BitVec 64)) : Set Nat := {k | ∃ r ∈ roots, k ∈ userPages m r}

def Data (s : Mm) (roots : Set (BitVec 64)) (k : Nat) : Prop :=
  s.pmm.page_used k = true ∧ k ∉ tablePages s.mem roots

structure Grows (s s' : Mm) (roots roots' : Set (BitVec 64)) : Prop where
  used : ∀ k, s.pmm.page_used k = true → s'.pmm.page_used k = true
  pages : ∀ k ∈ tablePages s'.mem roots', k ∈ tablePages s.mem roots ∨ k ∈ freePages s.pmm

theorem Grows.trans {s1 : Mm} {roots1 : Set (BitVec 64)} (h1 : Grows s s1 roots roots1)
    (h2 : Grows s1 s' roots1 roots') (hfree : freePages s1.pmm ⊆ freePages s.pmm) :
    Grows s s' roots roots' := by
  refine ⟨fun k hk => h2.used k (h1.used k hk), fun k hk => ?_⟩
  rcases h2.pages k hk with hk | hk
  · exact h1.pages k hk
  · exact .inr (hfree hk)

theorem Data.grow (h : Data s roots k) (hg : Grows s s' roots roots') : Data s' roots' k := by
  refine ⟨hg.used k h.1, fun hk => ?_⟩
  rcases hg.pages k hk with hk | hk
  · exact h.2 hk
  · exact not_free_of_used h.1 hk

def consolePage : Nat := 0xB8

/-- The tables are a forest, and every page that is mapped for the user half is data. -/
structure Owner (s : Mm) (roots : Set (BitVec 64)) : Prop where
  tables : Tables s roots
  addr : ∀ r ∈ roots, pte_addr r = r
  leaves : ∀ r ∈ roots, ∀ p i, UserPath (p ++ [i]) → p.length = 3 →
    has (slot s.mem r p i) PTE_PRESENT = true → Data s roots (pageOf (pte_addr (slot s.mem r p i)))
  console : Data s roots consolePage

/-! ## One call -/

section Only

variable {W : Set Nat}

theorem grows_of_only (hT : Tables s roots) (h : Only W s s')
    (hW : ∀ r ∈ roots, Disjoint (userPages s.mem r) W) : Grows s s' roots roots := by
  refine ⟨h.used, ?_⟩
  rintro k ⟨r, hr, q, x, hq, hn, hx, rfl⟩
  rw [hT.node_only h hW hr hq (by omega)] at hx
  exact .inl ⟨r, hr, q, x, hq, hn, hx, rfl⟩

theorem Owner.of_only (h : Owner s roots) (honly : Only W s s')
    (hW : ∀ r ∈ roots, Disjoint (userPages s.mem r) W) : Owner s' roots := by
  have hgrows := grows_of_only h.tables honly hW
  refine ⟨h.tables.of_only honly hW, h.addr, ?_, h.console.grow hgrows⟩
  intro r hr p i hp hn hpres
  rw [h.tables.slot_only honly hW hr hp.init (by omega) hp.last_lt] at hpres ⊢
  exact (h.leaves r hr p i hp hn hpres).grow hgrows

end Only

theorem NewPage.data {t : BitVec 64} (h : NewPage s s' t) (hT : Tables s roots) :
    Data s' roots (pageOf t) := by
  refine ⟨by simp [h.used], ?_⟩
  rintro ⟨r, hr, q, x, hq, hn, hx, heq⟩
  rw [hT.node_only h.only (fun _ _ => Set.disjoint_empty _) hr hq (by omega)] at hx
  apply hT.not_free hr hq hn hx
  rw [← heq]
  exact h.was_free

theorem NewRoot.grows (h : NewRoot s s' r) (hT : Tables s roots) :
    Grows s s' roots (insert r roots) := by
  refine ⟨h.only.used, ?_⟩
  rintro k ⟨r', rfl | hr', hk⟩
  · obtain ⟨q, x, hq, hn, hx, rfl⟩ := hk
    exact .inr (h.frames q x hq (by omega) hx).1
  · exact (grows_of_only hT h.only fun _ _ => Set.disjoint_empty _).pages k ⟨r', hr', hk⟩

theorem Owner.insert (h : Owner s roots) (hnew : NewRoot s s' r) : Owner s' (insert r roots) := by
  have hgrows := hnew.grows h.tables
  refine ⟨hnew.tables h.tables, ?_, ?_, h.console.grow hgrows⟩
  · rintro r' (rfl | hr')
    · exact hnew.addr
    · exact h.addr r' hr'
  · rintro r' (rfl | hr') p i hp hn hpres
    · -- A page of the new space: its frame is new too, and the tree has it only here.
      have hpage : node s'.mem r' (p ++ [i]) = some (pte_addr (slot s'.mem r' p i)) := by
        rw [node_of_slot]
        exact child_of_small hpres (by omega)
      have hlen : (p ++ [i]).length = 4 := by simp [hn]
      refine ⟨(hnew.frames _ _ hp (by omega) hpage).2, ?_⟩
      rintro ⟨r'', rfl | hr'', q, x, hq, hqn, hx, heq⟩
      · rw [pageOf_inj (addr_aligned _) (node_aligned hnew.aligned hx) heq] at hpage
        have hpath := hnew.inj _ q x hp hq (by omega) (by omega) hpage hx
        rw [hpath] at hlen
        omega
      · exact hnew.apart h.tables hr'' hq hqn hx hp (by omega) hpage heq.symm
    · rw [h.tables.slot_only hnew.only (fun _ _ => Set.disjoint_empty _) hr' hp.init
        (by omega) hp.last_lt]
        at hpres ⊢
      exact (h.leaves r' hr' p i hp hn hpres).grow hgrows

theorem Cloned.newRoot (h : Cloned s s' new) (hT : Tables s roots) (hcr3 : pte_addr s.cr3 ∈ roots) :
    NewRoot s s' new := by
  refine ⟨h.aligned, h.addr, h.only, ?_, ?_, ?_⟩
  · intro p t hp hn ht
    by_cases hnil : p = []
    · subst hnil
      cases ht
      exact ⟨h.was_free, h.used⟩
    · exact h.copy.fresh p t hnil (userPath_iff.mp hp) (by omega) ht
  · intro p q t hp hq hn hn' ht ht'
    exact h.copy.inj p q t (userPath_iff.mp hp) (userPath_iff.mp hq) (by omega) (by omega) ht ht'
  · intro p i hp hn hpres
    have hcopied := h.copy.slots p i (userPath_iff.mp hp) (by omega)
    have hold : has (slot s.mem (pte_addr s.cr3) p i) PTE_PRESENT = true := by
      rw [← hpres]
      exact hcopied.present.symm
    have hhuge := hcopied.is_huge hold
    rw [show slot s'.mem new p i = slotAt s'.mem 0 new p i from rfl, hhuge]
    exact hT.small _ hcr3 p i hp hn hold

theorem Owner.parent (h : Owner s roots) (hr : r ∈ roots) : Parent 256 0 s r := by
  refine ⟨h.tables.aligned r hr, ?_, ?_⟩
  · rintro k ⟨q, x, hq, hn, hx, rfl⟩
    rw [Nat.zero_add] at hn
    have hq' := userPath_iff.mpr hq
    rcases Nat.lt_or_ge q.length 4 with hlt | hge
    · exact h.tables.not_free hr hq' (by omega) hx
    · -- A path of full length ends in a page.
      rcases List.eq_nil_or_concat' q with rfl | ⟨p, i, rfl⟩
      · simp at hge
      rw [List.length_append, List.length_singleton] at hn hge
      have hx : node s.mem r (p ++ [i]) = some x := hx
      rw [node_of_slot] at hx
      obtain ⟨rfl, hpres⟩ := child_eq_some hx
      exact not_free_of_used (h.leaves r hr p i hq' (by omega) hpres).1
  · intro p i hp hn hpres
    exact h.tables.small r hr p i (userPath_iff.mpr hp) (by omega) hpres

theorem MappedOn.grows (h : Mapped s s' roots r virt phys flags) (hr : r ∈ roots) :
    Grows s s' roots roots := by
  refine ⟨h.only.used, ?_⟩
  rintro k ⟨r', hr', hk⟩
  by_cases heq : r' = r
  · subst heq
    rcases h.pages_subset hr hk with hk | hk
    · exact .inl ⟨r', hr', hk⟩
    · exact .inr hk
  · -- The other spaces keep all their entries, so they keep their tables.
    obtain ⟨q, x, hq, hn, hx, rfl⟩ := hk
    have hslots : ∀ p i, UserPath (p ++ [i]) → p.length ≤ 2 →
        slot s'.mem r' p i = slot s.mem r' p i := by
      intro p i hp hn
      exact h.slots r' hr' p i hp.init (by omega) hp.last_lt (fun h => heq h.1)
    rw [node_of_slots hslots hq hn] at hx
    exact .inl ⟨r', hr', q, x, hq, hn, hx, rfl⟩

theorem Owner.map (h : Owner s roots) (hr : r ∈ roots)
    (hflags : pte_flags flags = flags) (hphys : Data s roots (pageOf (pte_addr phys)))
    (hm : Mapped s s' roots r virt phys flags) : Owner s' roots := by
  have hgrows := hm.grows hr
  refine ⟨hm.tables, h.addr, ?_, h.console.grow hgrows⟩
  intro r' hr' p i hp hn hpres
  by_cases hhere : r' = r ∧ p ++ [i] = pathOf virt (p.length + 1)
  · obtain ⟨rfl, hpath⟩ := hhere
    obtain ⟨h1, h2⟩ := snoc_eq_pathOf hpath
    rw [hn] at h1 h2
    rw [h1, h2, hm.leaf, pageEntry_addr phys hflags]
    exact hphys.grow hgrows
  · rw [hm.slots r' hr' p i hp.init (by omega) hp.last_lt hhere] at hpres ⊢
    exact (h.leaves r' hr' p i hp hn hpres).grow hgrows

/-! ## Runs -/

structure World where
  kernel : Kernel
  roots : List (BitVec 64)

inductive WorldOp
  | space (op : SpaceOp)
  | sys_shmget
  | sys_shmat (id : Int)
  /-- A fault in the stack of the current task. -/
  | stack_fault (faulting_address error_code : BitVec 64)
  /-- `arch_map_page` for a page that `alloc_page` has just given. -/
  | map_new_page (virt flags : BitVec 64)
  /-- `arch_map_page` for the frame of the console. -/
  | map_console (virt flags : BitVec 64)
  /-- Another task goes on. -/
  | current_task (p : Nat)

namespace World

def spaces (w : World) : Set (BitVec 64) := {r | r ∈ w.roots}

def setMm (w : World) (mm : Mm) : World := { w with kernel := { w.kernel with mm := mm } }

def inSpace (w : World) : Bool := w.kernel.mm.current_pgd.any (· ∈ w.roots)

/-- Clones are only made of spaces of the run. -/
def clonesOwn (w : World) : SpaceOp → Bool
  | .clone_address_space => pte_addr w.kernel.mm.cr3 ∈ w.roots
  | _ => true

end World

def userMap (virt flags : BitVec 64) : Bool := pgd_index virt < 256 && pte_flags flags == flags

/-- Mappings are only made in spaces of the run. -/
def WorldOp.step (w : World) : WorldOp → Except Halt World
  | .space op =>
    if w.clonesOwn op then do
      let (mm, roots) ← op.call w.kernel.mm w.roots
      return ⟨{ w.kernel with mm := mm }, roots⟩
    else .error .no_space
  | .sys_shmget => do
    let (_, k) ← Code.sys_shmget w.kernel
    return { w with kernel := k }
  | .sys_shmat id =>
    if w.inSpace then do
      let (_, k) ← Code.sys_shmat w.kernel id
      return { w with kernel := k }
    else .error .no_space
  | .stack_fault faulting_address error_code =>
    if w.inSpace && Code.stack_fault w.kernel faulting_address error_code then do
      let k ← handle_page_fault w.kernel faulting_address error_code
      return { w with kernel := k }
    else .error .no_space
  | .map_new_page virt flags =>
    if w.inSpace && userMap virt flags then do
      let (phys, mm) ← alloc_page w.kernel.mm
      let mm ← arch_map_page mm virt phys flags
      return w.setMm mm
    else .error .no_space
  | .map_console virt flags =>
    if w.inSpace && userMap virt flags then do
      let mm ← arch_map_page w.kernel.mm virt 0xB8000 flags
      return w.setMm mm
    else .error .no_space
  | .current_task p => .ok { w with kernel := { w.kernel with current_task := p } }

/-- The frames have owners, the pages for shared memory are data, and stacks end in the user half. -/
structure Safe (w : World) : Prop where
  owner : Owner w.kernel.mm w.spaces
  shm : ∀ p, (w.kernel.task p).shm_count ≤ MAX_SHM_REGIONS ∧ ∀ id < (w.kernel.task p).shm_count,
    Data w.kernel.mm w.spaces (pageOf (pte_addr ((w.kernel.task p).shm_pages id)))
  stack : ∀ p, (w.kernel.task p).stack_end.toNat ≤ 0x800000000000

variable {w w' : World}

theorem Safe.grow {roots : List (BitVec 64)} (h : Safe w) (howner : Owner mm {r | r ∈ roots})
    (hgrows : Grows w.kernel.mm mm w.spaces {r | r ∈ roots}) :
    Safe ⟨{ w.kernel with mm := mm }, roots⟩ := by
  refine ⟨howner, fun p => ⟨(h.shm p).1, fun id hid => ?_⟩, h.stack⟩
  exact ((h.shm p).2 id hid).grow hgrows

theorem World.spaces_cons (w : World) (r : BitVec 64) :
    {x | x ∈ r :: w.roots} = insert r w.spaces := by
  ext x
  simp [World.spaces]

theorem Safe.newRoot (h : Safe w) (hnew : NewRoot w.kernel.mm mm r) :
    Safe ⟨{ w.kernel with mm := mm }, r :: w.roots⟩ := by
  have hset := w.spaces_cons r
  refine h.grow ?_ ?_
  · rw [hset]
    exact h.owner.insert hnew
  · rw [hset]
    exact hnew.grows h.owner.tables

theorem World.inSpace_iff : w.inSpace = true ↔ ∃ r ∈ w.spaces, w.kernel.mm.current_pgd = some r := by
  unfold inSpace spaces
  cases w.kernel.mm.current_pgd <;> simp

theorem Owner.arch_map_page (h : Owner s roots) (hr : r ∈ roots) (hpgd : s.current_pgd = some r)
    (hv : UserHalf virt) (hflags : pte_flags flags = flags)
    (hphys : Data s roots (pageOf (pte_addr phys)))
    (hmap : arch_map_page s virt phys flags = .ok s') :
    Owner s' roots ∧ Grows s s' roots roots := by
  have hm := arch_map_page_spec h.tables hr hpgd (pathOf_user hv 4) hmap
  exact ⟨h.map hr hflags hphys hm, hm.grows hr⟩

theorem Owner.map_new {s1 : Mm} (h : Owner s roots) (hr : r ∈ roots)
    (hpgd : s.current_pgd = some r) (hv : UserHalf virt) (hflags : pte_flags flags = flags)
    (halloc : alloc_page s = .ok (phys, s1)) (hmap : Code.arch_map_page s1 virt phys flags = .ok s') :
    Owner s' roots ∧ Grows s s' roots roots := by
  have hnew := alloc_page_new halloc
  have hdata := hnew.data h.tables
  rw [← hnew.addr] at hdata
  have hnone : ∀ r ∈ roots, Disjoint (userPages s.mem r) ∅ := fun _ _ => Set.disjoint_empty _
  obtain ⟨howner, hgrows⟩ := (h.of_only hnew.only hnone).arch_map_page hr
    (hnew.current_pgd.trans hpgd) hv hflags
    hdata hmap
  exact ⟨howner, (grows_of_only h.tables hnew.only hnone).trans hgrows hnew.only.free⟩

theorem userHalf_of_lt {v : BitVec 64} (h : v.toNat < 2 ^ 47) : UserHalf v := by
  unfold UserHalf pgd_index
  rw [toNat_index v 39 9 _ (by decide)]
  omega

theorem safe_shmget {ret : Int} (h : Safe w) (hk : sys_shmget w.kernel = .ok (ret, k')) :
    Safe { w with kernel := k' } := by
  unfold sys_shmget at hk
  dsimp only at hk
  split_ifs at hk with hcount
  · cases hk
    exact h
  obtain ⟨⟨phys, mm⟩, halloc, hk⟩ := bind_ok.mp hk
  cases hk
  have hnew := alloc_page_new halloc
  have hsafe := h.grow (h.owner.of_only hnew.only fun _ _ => Set.disjoint_empty _)
    (grows_of_only h.owner.tables hnew.only fun _ _ => Set.disjoint_empty _)
  refine ⟨hsafe.owner, fun p => ?_, fun p => ?_⟩
  · simp only [Kernel.update_task, Function.update_apply]
    split_ifs with hp
    · refine ⟨Nat.succ_le_of_lt (Nat.not_le.mp hcount), fun id hid => ?_⟩
      dsimp only at hid ⊢
      rw [Function.update_apply]
      split_ifs with hid'
      · rw [hnew.addr]
        exact hnew.data h.owner.tables
      · exact (hsafe.shm w.kernel.current_task).2 id (by dsimp only; omega)
    · exact hsafe.shm p
  · simp only [Kernel.update_task, Function.update_apply]
    split_ifs
    · exact h.stack _
    · exact h.stack p

theorem safe_shmat {id ret : Int} (h : Safe w) (hspace : w.inSpace = true)
    (hk : sys_shmat w.kernel id = .ok (ret, k')) : Safe { w with kernel := k' } := by
  obtain ⟨r, hr, hpgd⟩ := World.inSpace_iff.mp hspace
  unfold sys_shmat at hk
  dsimp only at hk
  split_ifs at hk with hid
  · cases hk
    exact h
  obtain ⟨mm, hmap, hk⟩ := bind_ok.mp hk
  cases hk
  obtain ⟨hcount, hdata⟩ := h.shm w.kernel.current_task
  have hv : UserHalf (SHM_VADDR_START + BitVec.ofNat 64 (id.toNat * PAGE_SIZE)) := by
    apply userHalf_of_lt
    have hle : id.toNat ≤ 4 := by
      simp only [MAX_SHM_REGIONS] at hcount
      omega
    have hstart : SHM_VADDR_START.toNat = 0x60000000 := rfl
    simp only [PAGE_SIZE, BitVec.toNat_add, BitVec.toNat_ofNat, hstart]
    omega
  obtain ⟨howner, hgrows⟩ := h.owner.arch_map_page hr hpgd hv (by decide) (hdata _ (by omega)) hmap
  exact h.grow howner hgrows

theorem handle_page_fault_cases {k : Kernel} {addr err : BitVec 64} (hk : handle_page_fault k addr err = .ok k') :
    (stack_fault k addr err = true ∧ ∃ phys mm1 mm, alloc_page k.mm = .ok (phys, mm1) ∧
      Code.arch_map_page mm1 (addr &&& PAGE_MASK) phys (PTE_WRITABLE ||| PTE_USER) = .ok mm ∧ k' = { k with mm := mm }) ∨
    (stack_fault k addr err = false ∧ err &&& 2 ≠ 0 ∧ ∃ pte e phys mm1, cow_entry k.mm addr = some (pte, e) ∧
      direct_mapped (pte_addr e) = true ∧ alloc_page k.mm = .ok (phys, mm1) ∧ k' = { k with mm := { mm1 with
        mem := write64 (kmemcpy mm1.mem phys.toNat (pte_addr e).toNat PAGE_SIZE) pte
          (phys ||| PTE_WRITABLE ||| PTE_USER ||| PTE_PRESENT) } }) := by
  unfold handle_page_fault at hk
  split_ifs at hk with hstack hwrite
  · obtain ⟨⟨phys, mm1⟩, halloc, hk⟩ := bind_ok.mp hk
    obtain ⟨mm, hmap, hk⟩ := bind_ok.mp hk
    cases hk
    exact .inl ⟨hstack, phys, mm1, mm, halloc, hmap, rfl⟩
  · split at hk
    · cases hk
    · rename_i pte e hcow
      obtain ⟨⟨phys, mm1⟩, halloc, hk⟩ := bind_ok.mp hk
      dsimp only at hk
      split_ifs at hk with hmapped
      cases hk
      exact .inr ⟨by simpa using hstack, hwrite, pte, e, phys, mm1,
        hcow, by simpa using hmapped, halloc, rfl⟩

theorem safe_stack_fault {addr err : BitVec 64} (h : Safe w) (hspace : w.inSpace = true)
    (hfault : stack_fault w.kernel addr err = true)
    (hk : handle_page_fault w.kernel addr err = .ok k') : Safe { w with kernel := k' } := by
  obtain ⟨r, hr, hpgd⟩ := World.inSpace_iff.mp hspace
  rcases handle_page_fault_cases hk with ⟨-, phys, mm, mm', halloc, hmap, rfl⟩ | ⟨hno, -⟩
  swap
  · rw [hfault] at hno
    cases hno
  have hv : UserHalf (addr &&& PAGE_MASK) := by
    apply userHalf_of_lt
    have hend := h.stack w.kernel.current_task
    simp only [stack_fault, Bool.and_eq_true, decide_eq_true_eq, BitVec.lt_def] at hfault
    have hle : (addr &&& PAGE_MASK).toNat ≤ addr.toNat := by
      rw [BitVec.toNat_and]
      exact Nat.and_le_left
    omega
  obtain ⟨howner, hgrows⟩ := h.owner.map_new hr hpgd hv (by decide) halloc hmap
  exact h.grow howner hgrows

theorem safe_space {op : SpaceOp} {roots : List (BitVec 64)} (h : Safe w)
    (hown : w.clonesOwn op = true) (hcall : op.call w.kernel.mm w.roots = .ok (mm, roots)) :
    Safe ⟨{ w.kernel with mm := mm }, roots⟩ := by
  cases op with
  | create_new_address_space =>
    obtain ⟨⟨r, mm⟩, hnew, hcall⟩ := bind_ok.mp hcall
    cases hcall
    exact h.newRoot (create_new_address_space_spec hnew).newRoot
  | clone_address_space =>
    obtain ⟨⟨r, mm⟩, hclone, hcall⟩ := bind_ok.mp hcall
    cases hcall
    have hcr3 : pte_addr w.kernel.mm.cr3 ∈ w.roots := of_decide_eq_true hown
    have hcloned := clone_address_space_spec (h.owner.parent hcr3) hclone
    exact h.newRoot (hcloned.newRoot h.owner.tables hcr3)
  | switch_address_space cr3 =>
    cases hcall
    have htables := h.owner.tables
    exact ⟨⟨⟨htables.aligned, htables.unshared, htables.used, htables.small⟩,
      h.owner.addr, h.owner.leaves, h.owner.console⟩, h.shm, h.stack⟩

theorem safe_step {op : WorldOp} (h : Safe w) (hstep : op.step w = .ok w') : Safe w' := by
  cases op with
  | space op =>
    unfold WorldOp.step at hstep
    dsimp only at hstep
    split_ifs at hstep with hown
    obtain ⟨⟨mm, roots⟩, hcall, hstep⟩ := bind_ok.mp hstep
    cases hstep
    exact safe_space h hown hcall
  | sys_shmget =>
    obtain ⟨⟨ret, k⟩, hk, hstep⟩ := bind_ok.mp hstep
    cases hstep
    exact safe_shmget h hk
  | sys_shmat id =>
    unfold WorldOp.step at hstep
    dsimp only at hstep
    split_ifs at hstep with hspace
    obtain ⟨⟨ret, k⟩, hk, hstep⟩ := bind_ok.mp hstep
    cases hstep
    exact safe_shmat h hspace hk
  | stack_fault addr err =>
    unfold WorldOp.step at hstep
    dsimp only at hstep
    split_ifs at hstep with hspace
    obtain ⟨k, hk, hstep⟩ := bind_ok.mp hstep
    cases hstep
    rw [Bool.and_eq_true] at hspace
    exact safe_stack_fault h hspace.1 hspace.2 hk
  | map_new_page virt flags =>
    unfold WorldOp.step at hstep
    dsimp only at hstep
    split_ifs at hstep with hspace
    obtain ⟨⟨phys, mm⟩, halloc, hstep⟩ := bind_ok.mp hstep
    obtain ⟨mm', hmap, hstep⟩ := bind_ok.mp hstep
    cases hstep
    simp only [userMap, Bool.and_eq_true, decide_eq_true_eq, beq_iff_eq] at hspace
    obtain ⟨r, hr, hpgd⟩ := World.inSpace_iff.mp hspace.1
    obtain ⟨howner, hgrows⟩ := h.owner.map_new hr hpgd hspace.2.1 hspace.2.2 halloc hmap
    exact h.grow howner hgrows
  | map_console virt flags =>
    unfold WorldOp.step at hstep
    dsimp only at hstep
    split_ifs at hstep with hspace
    obtain ⟨mm', hmap, hstep⟩ := bind_ok.mp hstep
    cases hstep
    simp only [userMap, Bool.and_eq_true, decide_eq_true_eq, beq_iff_eq] at hspace
    obtain ⟨r, hr, hpgd⟩ := World.inSpace_iff.mp hspace.1
    have hconsole : consolePage = pageOf (pte_addr 0xB8000) := by decide
    obtain ⟨howner, hgrows⟩ := h.owner.arch_map_page hr hpgd hspace.2.1 hspace.2.2
      (hconsole ▸ h.owner.console) hmap
    exact h.grow howner hgrows
  | current_task p =>
    cases hstep
    exact ⟨h.owner, h.shm, h.stack⟩

/-! ## What holds in every state of a run -/

def UserTable (s : Mm) (roots : Set (BitVec 64)) (t : BitVec 64) : Prop :=
  ∃ r ∈ roots, ∃ p, UserPath p ∧ p.length ≤ 3 ∧ node s.mem r p = some t

def ParentEntry (s : Mm) (roots : Set (BitVec 64)) (t : BitVec 64) (e : BitVec 64 × Nat) : Prop :=
  ∃ r ∈ roots, ∃ p, UserPath (p ++ [e.2]) ∧ p.length ≤ 2 ∧ node s.mem r p = some e.1 ∧
    has (table_get s.mem e.1 e.2) PTE_PRESENT = true ∧ pte_addr (table_get s.mem e.1 e.2) = t

variable {t : BitVec 64}

theorem parentEntry_iff (hT : Tables s roots) {e : BitVec 64 × Nat} :
    ParentEntry s roots t e ↔ ∃ r ∈ roots, ∃ p, UserPath (p ++ [e.2]) ∧ p.length ≤ 2 ∧
      node s.mem r p = some e.1 ∧ node s.mem r (p ++ [e.2]) = some t := by
  constructor
  · rintro ⟨r, hr, p, hp, hn, ht, hpres, rfl⟩
    exact ⟨r, hr, p, hp, hn, ht, hT.node_next hr hp ht hpres⟩
  · rintro ⟨r, hr, p, hp, hn, ht, hnext⟩
    rw [node_snoc, ht, Option.bind_some] at hnext
    obtain ⟨hnext, hpres⟩ := child_eq_some hnext
    exact ⟨r, hr, p, hp, hn, ht, hpres, hnext.symm⟩

theorem Tables.parent_unique (hT : Tables s roots) (ht : UserTable s roots t) (hroot : t ∉ roots) :
    ∃! e, ParentEntry s roots t e := by
  obtain ⟨r, hr, q, hq, hn, hx⟩ := ht
  rcases List.eq_nil_or_concat' q with rfl | ⟨p, i, rfl⟩
  · cases hx
    exact absurd hr hroot
  rw [List.length_append, List.length_singleton] at hn
  obtain ⟨t', ht', -⟩ := Option.bind_eq_some_iff.mp ((node_snoc s.mem r p i).symm.trans hx)
  refine ⟨(t', i), (parentEntry_iff hT).mpr ⟨r, hr, p, hq, by omega, ht', hx⟩, ?_⟩
  rintro ⟨t'', j⟩ hentry
  obtain ⟨r', hr', p', hp', hn', ht'', hx'⟩ := (parentEntry_iff hT).mp hentry
  obtain ⟨rfl, hpath⟩ := hT.unshared r hr r' hr' (p ++ [i]) (p' ++ [j]) t hq hp' (by simp; omega)
    (by simp; omega)
    hx hx'
  obtain ⟨rfl, hij⟩ := List.append_inj' hpath rfl
  cases hij
  rw [Option.some.inj (ht'.symm.trans ht'')]

theorem Tables.no_parent (hT : Tables s roots) (hr : r ∈ roots) (e : BitVec 64 × Nat) :
    ¬ ParentEntry s roots r e := by
  intro hentry
  obtain ⟨r', hr', p, hp, hn, -, hx⟩ := (parentEntry_iff hT).mp hentry
  obtain ⟨-, hpath⟩ := hT.unshared r hr r' hr' [] (p ++ [e.2]) r trivial hp (by simp)
    (by simp; omega) rfl hx
  simp at hpath

theorem Data.ne_table (h : Data s roots k) (ht : UserTable s roots t) : k ≠ pageOf t := by
  rintro rfl
  obtain ⟨r, hr, p, hp, hn, hx⟩ := ht
  exact h.2 ⟨r, hr, p, t, hp, hn, hx, rfl⟩

theorem pageOf_or (x v : BitVec 64) : pageOf (x ||| (v &&& 0xFFF)) = pageOf x := by
  have hlt : (v &&& 0xFFF).toNat < 4096 := by
    rw [BitVec.toNat_and]
    exact Nat.lt_of_le_of_lt Nat.and_le_right (by decide)
  unfold pageOf
  rw [BitVec.toNat_or, show 4096 = 2 ^ 12 from rfl, Nat.or_div_two_pow,
    Nat.div_eq_of_lt hlt, Nat.or_zero]

theorem Owner.translate {v a : BitVec 64} (h : Owner s roots) (hr : r ∈ roots) (hv : UserHalf v)
    (ha : translate s.mem r v = some a) : Data s roots (pageOf a) := by
  rw [h.tables.translate_eq hr (pathOf_user hv 4)] at ha
  split_ifs at ha with hpres
  cases ha
  rw [pageOf_or]
  exact h.leaves r hr _ _ (pathOf_succ_user hv 3) (by simp) hpres

theorem Owner.empty (h : s.pmm.page_used consolePage = true) : Owner s ∅ := by
  refine ⟨⟨?_, ?_, ?_, ?_⟩, ?_, ?_, h, ?_⟩ <;> simp [tablePages, Radix.Unshared]

theorem safe_start {k0 : Kernel} (hconsole : k0.mm.pmm.page_used consolePage = true)
    (hshm : ∀ p, (k0.task p).shm_count = 0)
    (hstack : ∀ p, (k0.task p).stack_end.toNat ≤ 0x800000000000) : Safe ⟨k0, []⟩ := by
  have hnone : World.spaces ⟨k0, []⟩ = ∅ := by
    unfold World.spaces
    simp
  refine ⟨hnone ▸ Owner.empty hconsole, fun p => ?_, hstack⟩
  rw [hshm p]
  exact ⟨Nat.zero_le _, fun id hid => absurd hid (Nat.not_lt_zero id)⟩

theorem pmm_init_console (mm : Mm) (total_kb : BitVec 32) (kernel_end : BitVec 64)
    (h : 0x100000 ≤ 4096 * kernel_pages kernel_end) :
    (pmm_init mm total_kb kernel_end).pmm.page_used consolePage = true := by
  rw [pmm_init_used, decide_eq_true_eq, consolePage]
  omega

/-- In every run the tables of the spaces are in use, each has one parent entry, and no page of a
user half is a table. Two spaces have no table in common. -/
theorem frames_have_one_owner {k0 : Kernel} (hconsole : k0.mm.pmm.page_used consolePage = true)
    (hshm : ∀ p, (k0.task p).shm_count = 0)
    (hstack : ∀ p, (k0.task p).stack_end.toNat ≤ 0x800000000000) {ops : List WorldOp} {w : World}
    (hrun : run WorldOp.step ⟨k0, []⟩ ops = .ok w) :
    (∀ t, UserTable w.kernel.mm w.spaces t → w.kernel.mm.pmm.page_used (pageOf t) = true) ∧
    (∀ t, UserTable w.kernel.mm w.spaces t → t ∉ w.spaces →
      ∃! e, ParentEntry w.kernel.mm w.spaces t e) ∧
    (∀ r ∈ w.spaces, ∀ e, ¬ ParentEntry w.kernel.mm w.spaces r e) ∧
    (∀ r ∈ w.spaces, ∀ p i, UserPath (p ++ [i]) → p.length = 3 →
      has (slot w.kernel.mm.mem r p i) PTE_PRESENT = true →
      ∀ t, UserTable w.kernel.mm w.spaces t →
        pageOf (pte_addr (slot w.kernel.mm.mem r p i)) ≠ pageOf t) ∧
    (∀ r ∈ w.spaces, ∀ v a, UserHalf v → translate w.kernel.mm.mem r v = some a →
      ∀ t, UserTable w.kernel.mm w.spaces t → pageOf a ≠ pageOf t) ∧
    ∀ r1 ∈ w.spaces, ∀ r2 ∈ w.spaces, ∀ t, UserTable w.kernel.mm {r1} t →
      UserTable w.kernel.mm {r2} t →
      r1 = r2 := by
  have howner := (run_inv Safe (fun _ _ _ _ => safe_step) (safe_start hconsole hshm hstack) hrun).owner
  refine ⟨?_, fun t => howner.tables.parent_unique, fun r hr => howner.tables.no_parent hr, ?_, ?_, ?_⟩
  · rintro t ⟨r, hr, p, hp, hn, ht⟩
    exact howner.tables.used r hr p t hp hn ht
  · intro r hr p i hp hn hpres t ht
    exact (howner.leaves r hr p i hp hn hpres).ne_table ht
  · intro r hr v a hv ha t ht
    exact (howner.translate hr hv ha).ne_table ht
  · rintro r1 h1 r2 h2 t ⟨_, rfl, p, hp, hn, ht⟩ ⟨_, rfl, q, hq, hqn, ht'⟩
    exact (howner.tables.unshared _ h1 _ h2 p q t hp hq hn hqn ht ht').1

def smallKernel : Kernel :=
  Kernel.boot (start ⟨Pmm.zero, fun _ => 0, 0, none⟩ 2048 0xFFFFFFFF80100000) 0

theorem smallKernel_pool : Pool 256 smallKernel.mm :=
  ⟨pmm_init_inv _ _ _ rfl (by decide), by decide⟩

theorem smallKernel_console : smallKernel.mm.pmm.page_used consolePage = true :=
  pmm_init_console _ 2048 0xFFFFFFFF80100000 (by decide)

theorem step_create (hnew : create_new_address_space w.kernel.mm = .ok (r, mm)) :
    (WorldOp.space .create_new_address_space).step w =
      .ok ⟨{ w.kernel with mm := mm }, r :: w.roots⟩ := by
  have hcall : SpaceOp.create_new_address_space.call w.kernel.mm w.roots =
      .ok (mm, r :: w.roots) := bind_ok.mpr ⟨_, hnew, rfl⟩
  exact bind_ok.mpr ⟨_, hcall, rfl⟩

/-- A space is made, a page is mapped into it, and a second space is made. -/
theorem frames_have_one_owner_small : ∃ r1 r2 w, run WorldOp.step ⟨smallKernel, []⟩
      [.space .create_new_address_space, .space (.switch_address_space r1),
        .map_new_page 0x400000 PTE_USER, .space .create_new_address_space] = .ok w ∧
    w.roots = [r2, r1] ∧ w.kernel.mm.pmm.page_used (pageOf r1) = true ∧
    ∀ t, UserTable w.kernel.mm {r1} t → UserTable w.kernel.mm {r2} t → r1 = r2 := by
  obtain ⟨r1, m1, hnew1, p1⟩ := create_new_address_space_pool (n := 255) smallKernel_pool
  have haddr := (create_new_address_space_spec hnew1).addr
  have p2 : Pool 255 (switch_address_space m1 r1) := p1.of_pmm rfl
  obtain ⟨phys, m2, halloc, p3⟩ := alloc_page_pool (n := 254) p2
  obtain ⟨m3, hmap, p4⟩ := arch_map_page_pool (n := 251) p3 0x400000 phys PTE_USER
  obtain ⟨r2, m4, hnew2, -⟩ := create_new_address_space_pool (n := 250) p4
  have hrun : run WorldOp.step ⟨smallKernel, []⟩
      [.space .create_new_address_space, .space (.switch_address_space r1),
        .map_new_page 0x400000 PTE_USER, .space .create_new_address_space] =
          .ok ⟨{ smallKernel with mm := m4 }, [r2, r1]⟩ := by
    refine bind_ok.mpr ⟨⟨{ smallKernel with mm := m1 }, [r1]⟩, step_create hnew1, ?_⟩
    refine bind_ok.mpr ⟨⟨{ smallKernel with mm := switch_address_space m1 r1 }, [r1]⟩, rfl, ?_⟩
    refine bind_ok.mpr ⟨⟨{ smallKernel with mm := m3 }, [r1]⟩, ?_, ?_⟩
    · have hguard : (World.inSpace ⟨{ smallKernel with mm := switch_address_space m1 r1 }, [r1]⟩ &&
          userMap 0x400000 PTE_USER) = true := by
        simp only [World.inSpace, switch_address_space, haddr]
        simp
        decide
      unfold WorldOp.step
      dsimp only
      rw [if_pos hguard]
      exact bind_ok.mpr ⟨_, halloc, bind_ok.mpr ⟨_, hmap, rfl⟩⟩
    · exact bind_ok.mpr ⟨_, step_create hnew2, rfl⟩
  obtain ⟨hused, -, -, -, -, hshare⟩ := frames_have_one_owner smallKernel_console
    (fun _ => rfl) (fun _ => Nat.zero_le _) hrun
  refine ⟨r1, r2, _, hrun, rfl, ?_, ?_⟩
  · exact hused r1 ⟨r1, by simp [World.spaces], [], trivial, by simp, rfl⟩
  · exact hshare r1 (by simp [World.spaces]) r2 (by simp [World.spaces])

end Relis.Paging
