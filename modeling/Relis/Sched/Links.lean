import Relis.Code.Process
import Relis.Lists

/-!
# The three lists of the scheduler

The nodes of one kind lie apart from those of the other kinds, so a call on one
list leaves the other two.
-/

open Relis.Code Relis.Dll Relis.Lists Relis.Run

namespace Relis.Sched

variable {k k' : Kernel} {p q : Nat} {n m : ListNode} {w : Word}

/-! ## Words of a task -/

theorem task_update (f : Task → Task) :
    (k.update_task p f).task q = if q = p then f (k.task p) else k.task q := by
  unfold Kernel.update_task
  exact Function.update_apply _ _ _ _

theorem task_new (t : Task) : (k.new_task p t).task q = if q = p then t else k.task q := by
  unfold Kernel.new_task
  exact Function.update_apply _ _ _ _

theorem entity_set_entity (i j : Nat) :
    ((k.set_entity p i w).task q).entity j = if q = p ∧ j = i then w else (k.task q).entity j := by
  unfold Kernel.set_entity
  rw [task_update]
  by_cases hq : q = p
  · simp only [hq, if_true, true_and, Function.update_apply]
  · simp only [hq, if_false, false_and]

theorem tasks_set_entity (i : Nat) : ((k.set_entity p i w).task q).tasks = (k.task q).tasks := by
  unfold Kernel.set_entity
  rw [task_update]
  split
  · simp only [*]
  · rfl

theorem node_at_store_next :
    (k.store_next n w).node_at m = if m = n then { k.node_at n with next := w } else k.node_at m := by
  cases n <;> cases m <;>
    simp +decide [Kernel.store_next, Kernel.node_at, entity_set_entity, tasks_set_entity, task_update]
  -- What is left are heads against nodes of tasks, and two nodes of one kind.
  all_goals first
    | rfl
    | split <;> simp_all

theorem node_at_store_prev :
    (k.store_prev n w).node_at m = if m = n then { k.node_at n with prev := w } else k.node_at m := by
  cases n <;> cases m <;>
    simp +decide [Kernel.store_prev, Kernel.node_at, entity_set_entity, tasks_set_entity, task_update]
  all_goals first
    | rfl
    | split <;> simp_all

theorem link_of_link (v : Option ListNode) : (Word.of_link v).link = v := by
  cases v <;> rfl

instance : LawfulListHeap Kernel where
  next_set_next k a b v _ := by
    change ((k.store_next a _).node_at b).next.link = if b = a then v else (k.node_at b).next.link
    rw [node_at_store_next]
    split
    · exact link_of_link v
    · rfl
  prev_set_next k a b v := by
    change ((k.store_next a _).node_at b).prev.link = (k.node_at b).prev.link
    rw [node_at_store_next]
    split
    · rw [‹b = a›]
    · rfl
  next_set_prev k a b v := by
    change ((k.store_prev a _).node_at b).next.link = (k.node_at b).next.link
    rw [node_at_store_prev]
    split
    · rw [‹b = a›]
    · rfl
  prev_set_prev k a b v _ := by
    change ((k.store_prev a _).node_at b).prev.link = if b = a then v else (k.node_at b).prev.link
    rw [node_at_store_prev]
    split
    · exact link_of_link v
    · rfl

/-! ## What list calls leave -/

def taskCore (t : Task) : Task := { t with entity := fun _ => .int 0, tasks := ⟨.int 0, .int 0⟩ }

def core (k : Kernel) : Kernel :=
  { k with
    task := fun p => taskCore (k.task p)
    cfs_queue := ⟨.int 0, .int 0⟩
    rt_queue := ⟨.int 0, .int 0⟩
    global_tasks := ⟨.int 0, .int 0⟩ }

theorem core_update {f : Task → Task} (hf : taskCore (f (k.task p)) = taskCore (k.task p)) :
    core (k.update_task p f) = core k := by
  unfold core
  congr 1
  funext q
  rw [task_update]
  split
  · rw [hf, ‹q = p›]
  · rfl

theorem core_store_next : core (k.store_next n w) = core k := by
  cases n <;> first | rfl | exact core_update rfl

theorem core_store_prev : core (k.store_prev n w) = core k := by
  cases n <;> first | rfl | exact core_update rfl

theorem core_relinks (h : Relinks k k') : core k' = core k := by
  induction h with
  | refl => rfl
  | next a v _ ih => exact core_store_next.trans ih
  | prev a v _ ih => exact core_store_prev.trans ih

theorem node_at_update {f : Task → Task} (hentity : (f (k.task p)).entity = (k.task p).entity)
    (htasks : (f (k.task p)).tasks = (k.task p).tasks) :
    (k.update_task p f).node_at n = k.node_at n := by
  cases n with
  | cfs_queue => rfl
  | rt_queue => rfl
  | global_tasks => rfl
  | se_run_node q =>
    simp only [Kernel.node_at, task_update]
    split <;> simp_all
  | rt_run_node q =>
    simp only [Kernel.node_at, task_update]
    split <;> simp_all
  | tasks q =>
    simp only [Kernel.node_at, task_update]
    split <;> simp_all

def nodesOf (p : Nat) : List ListNode := [.se_run_node p, .rt_run_node p, .tasks p]

theorem node_at_new (t : Task) (hn : n ∉ nodesOf p) : (k.new_task p t).node_at n = k.node_at n := by
  cases n <;> simp_all [nodesOf, Kernel.node_at, Kernel.new_task]

/-! ## The lists -/

structure Rings (k : Kernel) (cfs rt all : List Nat) : Prop where
  cfs : Ring (links k) .cfs_queue (cfs.map .se_run_node)
  rt : Ring (links k) .rt_queue (rt.map .rt_run_node)
  all : Ring (links k) .global_tasks (all.map .tasks)

variable {cfs rt all : List Nat}

theorem sameLinks_of_node_at (h : k'.node_at n = k.node_at n) : SameLinks k k' n := by
  constructor
  · change (k'.node_at n).next.link = (k.node_at n).next.link
    rw [h]
  · change (k'.node_at n).prev.link = (k.node_at n).prev.link
    rw [h]

theorem Rings.of_same (h : Rings k cfs rt all) (hsame : ∀ n, k'.node_at n = k.node_at n) :
    Rings k' cfs rt all :=
  ⟨ring_of_sameLinks h.cfs fun n _ => sameLinks_of_node_at (hsame n),
    ring_of_sameLinks h.rt fun n _ => sameLinks_of_node_at (hsame n),
    ring_of_sameLinks h.all fun n _ => sameLinks_of_node_at (hsame n)⟩

theorem Rings.of_new (h : Rings k cfs rt all) (hsame : ∀ n, n ∉ nodesOf p → SameLinks k k' n)
    (hcfs : p ∉ cfs) (hrt : p ∉ rt) (hall : p ∉ all) : Rings k' cfs rt all := by
  have hnot : ∀ n, (n = .se_run_node p → p ∈ cfs) → (n = .rt_run_node p → p ∈ rt) →
      (n = .tasks p → p ∈ all) → SameLinks k k' n := by
    intro n h1 h2 h3
    refine hsame n ?_
    simp only [nodesOf, List.mem_cons, List.not_mem_nil, or_false]
    tauto
  refine ⟨ring_of_sameLinks h.cfs ?_, ring_of_sameLinks h.rt ?_, ring_of_sameLinks h.all ?_⟩
  · intro n hn
    apply hnot n <;> rintro rfl <;> simp_all
  · intro n hn
    apply hnot n <;> rintro rfl <;> simp_all
  · intro n hn
    apply hnot n <;> rintro rfl <;> simp_all

def headOf : ListNode → ListNode
  | .se_run_node _ => .cfs_queue
  | .rt_run_node _ => .rt_queue
  | .tasks _ => .global_tasks
  | head => head

def OnlyList (g : ListNode) (k k' : Kernel) : Prop := ∀ n, headOf n ≠ g → SameLinks k k' n

theorem headOf_mem {g : ListNode} {f : Nat → ListNode} {L : List Nat} (hn : n ∈ g :: L.map f)
    (hg : headOf g = g) (hf : ∀ p, headOf (f p) = g) : headOf n = g := by
  rw [List.mem_cons, List.mem_map] at hn
  obtain rfl | ⟨p, -, rfl⟩ := hn
  · exact hg
  · exact hf p

theorem onlyList_of_inserted {g e : ListNode} {f : Nat → ListNode} {L : List Nat} {L' : List ListNode}
    (h : Inserted k k' g e (L.map f) L') (hg : headOf g = g) (hf : ∀ p, headOf (f p) = g)
    (he : headOf e = g) : OnlyList g k k' := by
  intro n hn
  refine h.frame n ?_
  rw [List.mem_cons, not_or]
  constructor
  · rintro rfl
    exact hn he
  · exact fun hmem => hn (headOf_mem hmem hg hf)

theorem Rings.edit_cfs {cfs' : List Nat} (h : Rings k cfs rt all) (honly : OnlyList .cfs_queue k k')
    (hring : Ring (links k') .cfs_queue (cfs'.map .se_run_node)) : Rings k' cfs' rt all := by
  refine ⟨hring, ring_of_sameLinks h.rt ?_, ring_of_sameLinks h.all ?_⟩
  · intro n hn
    exact honly n (by rw [headOf_mem hn rfl fun _ => rfl]; simp)
  · intro n hn
    exact honly n (by rw [headOf_mem hn rfl fun _ => rfl]; simp)

theorem Rings.edit_rt {rt' : List Nat} (h : Rings k cfs rt all) (honly : OnlyList .rt_queue k k')
    (hring : Ring (links k') .rt_queue (rt'.map .rt_run_node)) : Rings k' cfs rt' all := by
  refine ⟨ring_of_sameLinks h.cfs ?_, hring, ring_of_sameLinks h.all ?_⟩
  · intro n hn
    exact honly n (by rw [headOf_mem hn rfl fun _ => rfl]; simp)
  · intro n hn
    exact honly n (by rw [headOf_mem hn rfl fun _ => rfl]; simp)

theorem Rings.edit_all {all' : List Nat} (h : Rings k cfs rt all)
    (honly : OnlyList .global_tasks k k')
    (hring : Ring (links k') .global_tasks (all'.map .tasks)) : Rings k' cfs rt all' := by
  refine ⟨ring_of_sameLinks h.cfs ?_, ring_of_sameLinks h.rt ?_, hring⟩
  · intro n hn
    exact honly n (by rw [headOf_mem hn rfl fun _ => rfl]; simp)
  · intro n hn
    exact honly n (by rw [headOf_mem hn rfl fun _ => rfl]; simp)

/-! ## The calls of the scheduler -/

theorem Rings.add_task (h : Rings k cfs rt all) (hp : p ∉ all) :
    ∃ k', list_add k (.tasks p) .global_tasks = .ok k' ∧ Rings k' cfs rt (p :: all) ∧
      core k' = core k := by
  obtain ⟨k', hk', hins⟩ := list_add_spec h.all (e := .tasks p) (by simpa using hp)
  have honly := onlyList_of_inserted hins rfl (fun _ => rfl) rfl
  exact ⟨k', hk', h.edit_all honly hins.ring, core_relinks hins.relinks⟩

theorem enqueue_task_fair_spec (h : Rings k cfs rt all) (hp : p ∉ cfs) :
    ∃ k', enqueue_task_fair k p = .ok k' ∧ Rings k' (cfs ++ [p]) rt all ∧
      core k' = { core k with nr_running := k.nr_running + 1 } := by
  obtain ⟨k', hk', hins⟩ := list_add_tail_spec h.cfs (e := .se_run_node p) (by simpa using hp)
  have honly := onlyList_of_inserted hins rfl (fun _ => rfl) rfl
  have hrings : Rings k' (cfs ++ [p]) rt all := h.edit_cfs honly (by simpa using hins.ring)
  have hcore := core_relinks hins.relinks
  refine ⟨{ k' with nr_running := k'.nr_running + 1 }, ?_, hrings.of_same fun n => rfl, ?_⟩
  · unfold enqueue_task_fair
    rw [hk']
    rfl
  · have hnr : k'.nr_running = k.nr_running := (congrArg Kernel.nr_running hcore :)
    rw [← hcore, ← hnr]
    rfl

theorem enqueue_task_rt_spec (h : Rings k cfs rt all) (hp : p ∉ rt) :
    ∃ k', enqueue_task_rt k p = .ok k' ∧ Rings k' cfs (p :: rt) all ∧
      core k' = { core k with nr_running := k.nr_running + 1 } := by
  obtain ⟨k', hk', hins⟩ := list_add_spec h.rt (e := .rt_run_node p) (by simpa using hp)
  have honly := onlyList_of_inserted hins rfl (fun _ => rfl) rfl
  have hrings : Rings k' cfs (p :: rt) all := h.edit_rt honly hins.ring
  have hcore := core_relinks hins.relinks
  refine ⟨{ k' with nr_running := k'.nr_running + 1 }, ?_, hrings.of_same fun n => rfl, ?_⟩
  · unfold enqueue_task_rt
    rw [hk']
    rfl
  · have hnr : k'.nr_running = k.nr_running := (congrArg Kernel.nr_running hcore :)
    rw [← hcore, ← hnr]
    rfl

theorem pick_next_task_rt_spec (h : Rings k cfs rt all) : pick_next_task_rt k = .ok rt.head? := by
  unfold pick_next_task_rt
  have hempty := list_empty_spec h.rt
  have hhead := h.rt.next_head
  rw [links_next] at hhead
  cases rt with
  | nil =>
    rw [if_pos (hempty.mpr rfl)]
    rfl
  | cons p rt =>
    rw [if_neg (by rw [hempty]; simp), hhead]
    rfl

theorem pick_next_task_fair_nil (h : Rings k [] rt all) : pick_next_task_fair k = .ok (none, k) := by
  unfold pick_next_task_fair
  rw [if_pos ((list_empty_spec h.cfs).mpr rfl)]
  rfl

theorem pick_next_task_fair_cons (h : Rings k (p :: cfs) rt all) :
    ∃ k', pick_next_task_fair k = .ok (some p, k') ∧ Rings k' (cfs ++ [p]) rt all ∧
      core k' = core k := by
  have hhead := h.cfs.next_head
  rw [links_next] at hhead
  obtain ⟨k1, hk1, hring1, hrel1, -, -, hframe1⟩ :=
    list_del_spec (A := []) (B := cfs.map ListNode.se_run_node) (e := ListNode.se_run_node p) h.cfs
  have hp : ListNode.se_run_node p ∉ ListNode.cfs_queue :: cfs.map .se_run_node := by
    have hnodup := h.cfs.nodup
    simp only [List.map_cons, List.nodup_cons, List.mem_cons] at hnodup ⊢
    tauto
  obtain ⟨k2, hk2, hins⟩ := list_add_tail_spec hring1 hp
  have honly1 : OnlyList .cfs_queue k k1 := by
    intro n hn
    exact hframe1 n fun hmem => hn (headOf_mem (L := p :: cfs) hmem rfl fun _ => rfl)
  have honly2 : OnlyList .cfs_queue k1 k2 :=
    onlyList_of_inserted (L := cfs) hins rfl (fun _ => rfl) rfl
  have honly : OnlyList .cfs_queue k k2 := fun n hn =>
    ⟨(honly2 n hn).1.trans (honly1 n hn).1, (honly2 n hn).2.trans (honly1 n hn).2⟩
  refine ⟨k2, ?_, h.edit_cfs honly (by simpa using hins.ring),
    (core_relinks hins.relinks).trans (core_relinks hrel1)⟩
  unfold pick_next_task_fair
  rw [if_neg (by rw [list_empty_spec h.cfs]; simp), hhead]
  simp [deref, bind, Except.bind, hk1, hk2, se_entry, pure, Except.pure]

theorem find_task_spec (h : Rings k cfs rt all) (hfuel : all.length < k.heap_ptr.toNat + 1)
    (pid : Nat) : find_task k pid = .ok (all.find? fun p => (k.task p).pid = pid) := by
  have hfind : find_task k pid = _ :=
    list_for_each_find id (fun p => (k.task p).pid = pid) h.all hfuel fun _ _ => rfl
  rwa [Option.map_id] at hfind

end Relis.Sched
