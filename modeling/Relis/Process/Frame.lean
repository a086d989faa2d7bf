import Mathlib.Logic.Relation
import Relis.Process.Tasks
import Relis.Sched.Run

/-!
# What a call leaves of the tasks

The scheduler moves and marks tasks. What else is in a task changes by calls of its own
only, apart from the signals that it is sent.
-/

open Relis.Bytes Relis.Code Relis.Lists Relis.Run Relis.Sched Relis.Slab

namespace Relis.Process

variable {k k' k1 : Kernel} {a : Queues} {p q : Nat}

/-! ## List calls -/

theorem linksIn_true (k : Kernel) : LinksIn (fun _ : ListNode => True) k := fun _ _ _ => trivial

theorem enqueue_task_core (h : enqueue_task k p = .ok k') (q : Nat) :
    taskCore (k'.task q) = taskCore (k.task q) :=
  (congrArg (fun k => Kernel.task k q) (enqueue_task_links (fun _ _ => trivial) (linksIn_true k)
    (fun _ _ => trivial) h).2 :)

theorem list_add_core {e g : ListNode} (h : list_add k e g = .ok k') : core k' = core k :=
  core_relinks (list_add_links (linksIn_true k) trivial trivial h).2

theorem pick_next_task_core {next : Nat} (h : pick_next_task k = .ok (next, k')) : core k' = core k :=
  (pick_next_task_links (fun _ _ => trivial) (linksIn_true k) h).2.2

theorem core_task (h : core k' = core k) (q : Nat) : taskCore (k'.task q) = taskCore (k.task q) :=
  (congrArg (fun k => Kernel.task k q) h :)

/-! ## New tasks -/

structure Tasks (k' : Kernel) (structs : List Nat) (current : Nat) (task : Nat → Task) : Prop where
  task_structs : k'.task_structs = structs
  current_task : k'.current_task = current
  task : ∀ q, taskCore (k'.task q) = taskCore (task q)

theorem Tasks.of_core {structs : List Nat} {current : Nat} {task : Nat → Task}
    (h : Tasks k structs current task) (hcore : core k' = core k) : Tasks k' structs current task :=
  ⟨(congrArg Kernel.task_structs hcore :).trans h.task_structs,
    (congrArg Kernel.current_task hcore :).trans h.current_task,
    fun q => (core_task hcore q).trans (h.task q)⟩

theorem Tasks.enter {structs : List Nat} {current : Nat} {task : Nat → Task} {e g : ListNode}
    (h : Tasks k structs current task) (hqueue : enqueue_task k p = .ok k1)
    (hadd : list_add k1 e g = .ok k') : Tasks k' structs current task := by
  have hrelinked :=
    (enqueue_task_links (fun _ _ => trivial) (linksIn_true k) (fun _ _ => trivial) hqueue).2
  refine Tasks.of_core ?_ (list_add_core hadd)
  exact ⟨(congrArg Kernel.task_structs hrelinked :).trans h.task_structs,
    (congrArg Kernel.current_task hrelinked :).trans h.current_task,
    fun q => (enqueue_task_core hqueue q).trans (h.task q)⟩

theorem kernel_thread_tasks {fn arg : BitVec 64} {policy : BitVec 32} {ret : Int}
    (hk : kernel_thread k fn arg policy = .ok (ret, k')) :
    (ret = -1 ∧ k' = k) ∨ ∃ files, Tasks k' (k.heap_ptr.toNat :: k.task_structs) k.current_task
      (Function.update k.task
      k.heap_ptr.toNat
        { new_thread k.heap_ptr.toNat k.next_pid k.mm.cr3 fn arg policy with files := files }) := by
  rcases kernel_thread_ok hk with hnone | ⟨heap_ptr, k1, k2, k3, -, hfill, hqueue, hadd, rfl⟩
  · exact .inl hnone
  rcases task_setup_stdio_spec _ _ with herr | ⟨k1', hfill', hf⟩
  · cases herr.symm.trans hfill
  cases hfill'.symm.trans hfill
  obtain ⟨files, hself⟩ := hf.self
  have hfilled : Tasks k1 (k.heap_ptr.toNat :: k.task_structs) k.current_task (Function.update k.task
      k.heap_ptr.toNat
        { new_thread k.heap_ptr.toNat k.next_pid k.mm.cr3 fn arg policy with files := files }) := by
    refine ⟨hf.task_structs, hf.current_task, fun q => ?_⟩
    by_cases hq : q = k.heap_ptr.toNat
    · subst hq
      rw [hself, Function.update_self, task_new, if_pos rfl]
    · rw [hf.others q hq, Function.update_of_ne hq, task_new, if_neg hq]
  have hin := hfilled.enter hqueue hadd
  exact .inr ⟨files, hin.task_structs, hin.current_task, hin.task⟩

def raised (bits : BitVec 64) (t : Task) : Task :=
  { t with pending_signals := t.pending_signals ||| bits }

theorem raised_core {t t' : Task} (bits : BitVec 64) (h : taskCore t' = taskCore t) :
    taskCore (raised bits t') = taskCore (raised bits t) := (congrArg (raised bits) h :)

theorem sys_fork_tasks {regs : Registers} {ret : Int} (hk : sys_fork k regs = .ok (ret, k'))
    (hcurrent : k.current_task ≠ k.heap_ptr.toNat) :
    (ret = -1 ∧ k' = k) ∨ ∃ cr3, Tasks k' (k.heap_ptr.toNat :: k.task_structs) k.current_task
      (Function.update
      (Function.update k.task k.current_task
        (raised (sig_bit RELIS_SIGCHLD) (k.task k.current_task)))
      k.heap_ptr.toNat
        (fork_task (k.task k.current_task) k.heap_ptr.toNat k.next_pid cr3 regs)) := by
  rcases sys_fork_ok hk with ⟨-, hnone⟩ | ⟨heap_ptr, cr3, mm, k2, k3, -, -, -, hclone,
    hqueue, hadd, rfl⟩
  · exact .inl hnone
  have hnew : Tasks
      (Kernel.new_task { k with heap_ptr := heap_ptr, next_pid := u32 (k.next_pid + 1), mm := mm }
      k.heap_ptr.toNat (fork_task (k.task k.current_task) k.heap_ptr.toNat k.next_pid cr3 regs))
      (k.heap_ptr.toNat :: k.task_structs) k.current_task (Function.update k.task k.heap_ptr.toNat
        (fork_task (k.task k.current_task) k.heap_ptr.toNat k.next_pid cr3 regs)) :=
    ⟨rfl, rfl, fun _ => rfl⟩
  have hinit := hnew.of_core (core_relinks (init_list_head_spec _ (.se_run_node k.heap_ptr.toNat)).2.1)
  have hin := hinit.enter hqueue hadd
  refine .inr ⟨cr3, hin.task_structs, hin.current_task, fun q => ?_⟩
  change taskCore ((k3.update_task k.current_task (raised (sig_bit RELIS_SIGCHLD))).task q) = _
  have hq := hin.task q
  rw [task_update]
  split_ifs with hparent
  · rw [hparent, Function.update_of_ne hcurrent] at hq ⊢
    rw [raised_core _ hq, Function.update_self]
  · by_cases hchild : q = k.heap_ptr.toNat
    · rw [hchild, Function.update_self] at hq ⊢
      exact hq
    · rw [Function.update_of_ne hchild] at hq ⊢
      rw [hq, Function.update_of_ne hparent]

/-! ## Switches and exits -/

def settled (t : Task) : Task := { taskCore t with state := .TASK_RUNNING, flags := 0 }

theorem settled_of_core {t t' : Task} (h : taskCore t' = taskCore t) : settled t' = settled t := by
  unfold settled
  rw [h]

theorem schedule_settled (hk : __schedule k = .ok k') (q : Nat) :
    settled (k'.task q) = settled (k.task q) := by
  unfold __schedule at hk
  obtain ⟨⟨next, k1⟩, hpick, hk1⟩ := bind_ok.mp hk
  have hq := settled_of_core (core_task (pick_next_task_core hpick) q)
  dsimp only at hk1
  split at hk1
  · cases hk1
    rw [task_update, ← hq]
    split_ifs with hcurrent
    · rw [hcurrent]
      rfl
    · rfl
  · split at hk1
    · cases hk1
      exact hq
    · cases hk1
      exact hq

theorem schedule_task_structs (hk : __schedule k = .ok k') : k'.task_structs = k.task_structs := by
  unfold __schedule at hk
  obtain ⟨⟨next, k1⟩, hpick, hk1⟩ := bind_ok.mp hk
  have hstructs : k1.task_structs = k.task_structs :=
    (congrArg Kernel.task_structs (pick_next_task_core hpick) :)
  dsimp only at hk1
  split at hk1
  · cases hk1
    exact hstructs
  · split at hk1
    · cases hk1
      exact hstructs
    · cases hk1
      exact hstructs

theorem set_zombie_settled (k : Kernel) (q : Nat) :
    settled ((set_zombie k).task q) = settled (k.task q) := by
  change settled ((k.update_task k.current_task fun t => { t with state := .TASK_ZOMBIE }).task q) = _
  rw [task_update]
  split_ifs with hq
  · rw [hq]
    rfl
  · rfl

theorem exit_settled (hk : schedule (set_zombie k) = .ok k') (q : Nat) :
    settled (k'.task q) = settled (k.task q) :=
  (schedule_settled hk q).trans (set_zombie_settled k q)

/-! ## Signals -/

theorem sys_kill_cases (h : Sound k a) {pid : Nat} {sig ret : Int}
    (hk : sys_kill k pid sig = .ok (ret, k')) :
    k' = k ∨ ∃ target, 1 ≤ sig.toNat ∧ sig.toNat < MAX_SIGNALS ∧
      k' = k.update_task target (raised (sig_bit sig.toNat)) := by
  unfold sys_kill at hk
  split at hk
  · cases hk
    exact .inl rfl
  rename_i hsig
  have hfuel : a.tasks.length < k.heap_ptr.toNat + 1 := by
    have := h.facts.room
    omega
  rw [find_task_spec h.rings hfuel] at hk
  cases hfind : a.tasks.find? fun p => (k.task p).pid = pid with
  | none =>
    rw [hfind] at hk
    cases hk
    exact .inl rfl
  | some target =>
    have hmem := List.mem_of_find?_eq_some hfind
    have hsound : Sound (k.update_task target (raised (sig_bit sig.toNat))) a :=
      h.update rfl rfl rfl rfl id
    rw [hfind] at hk
    replace hk := (if_neg (hsound.facts.awake target hmem)).symm.trans hk
    cases hk
    refine .inr ⟨target, ?_, ?_, rfl⟩
    · omega
    · unfold MAX_SIGNALS at hsig ⊢
      omega

theorem exit_if_settled {fatal here : Bool} (hk : exit_if fatal k = .ok (here, k')) :
    (∀ q, settled (k'.task q) = settled (k.task q)) ∧ k'.task_structs = k.task_structs ∧
      (here = true → k'.current_task = k.current_task) := by
  unfold exit_if at hk
  split_ifs at hk
  · obtain ⟨k1, hexit, hk1⟩ := bind_ok.mp hk
    cases hk1
    have hsame : k'.task_structs = (set_zombie k).task_structs := schedule_task_structs hexit
    exact ⟨exit_settled hexit, hsame, of_decide_eq_true⟩
  · cases hk
    exact ⟨fun _ => rfl, rfl, fun _ => rfl⟩

def lowered (bits : BitVec 64) (t : Task) : Task :=
  { t with pending_signals := t.pending_signals &&& ~~~bits }

theorem settled_lowered {t t' : Task} (bits : BitVec 64) (h : settled t' = settled t) :
    settled (lowered bits t') = settled (lowered bits t) := (congrArg (lowered bits) h :)

theorem lowered_zero (t : Task) : lowered 0 t = t := by
  change { t with pending_signals := t.pending_signals &&& BitVec.allOnes 64 } = t
  rw [BitVec.and_allOnes]

theorem lowered_lowered (bits bits' : BitVec 64) (t : Task) :
    lowered bits' (lowered bits t) = lowered (bits ||| bits') t := by
  unfold lowered
  simp [BitVec.not_or, BitVec.and_assoc]

inductive Turn (k : Kernel) (regs : Registers) (sig : Nat) (sigs : List Nat) :
  Option Registers → Kernel → Prop
  | skipped {r : Option Registers} {k' : Kernel}
    (hbit : (k.task k.current_task).pending_signals &&& sig_bit sig = 0)
      (hrest : deliver_from k regs sigs = .ok (r, k')) : Turn k regs sig sigs r k'
  /-- Another task runs after the exit for `SIGKILL`. -/
  | killed {k' : Kernel} (hbit : (k.task k.current_task).pending_signals &&& sig_bit sig ≠ 0)
      (hexit : exit_if (sig = RELIS_SIGKILL) (k.update_task k.current_task (lowered (sig_bit sig))) =
        .ok (false, k')) : Turn k regs sig sigs none k'
  /-- Another task runs after the exit for a signal without a handler. -/
  | exited {k1 k' : Kernel} (hbit : (k.task k.current_task).pending_signals &&& sig_bit sig ≠ 0)
      (hexit : exit_if (sig = RELIS_SIGKILL)
        (k.update_task k.current_task (lowered (sig_bit sig))) = .ok (true, k1))
      (hhandler : (k1.task k1.current_task).signal_handlers sig = 0)
      (hexit1 : exit_if (sig = RELIS_SIGINT ∨ sig = RELIS_SIGHUP) k1 = .ok (false, k')) :
        Turn k regs sig sigs none k'
  | dropped {r : Option Registers} {k1 k2 k' : Kernel}
      (hbit : (k.task k.current_task).pending_signals &&& sig_bit sig ≠ 0)
      (hexit : exit_if (sig = RELIS_SIGKILL)
        (k.update_task k.current_task (lowered (sig_bit sig))) = .ok (true, k1))
      (hhandler : (k1.task k1.current_task).signal_handlers sig = 0)
      (hexit1 : exit_if (sig = RELIS_SIGINT ∨ sig = RELIS_SIGHUP) k1 = .ok (true, k2))
      (hrest : deliver_from k2 regs sigs = .ok (r, k')) : Turn k regs sig sigs r k'
  | handled {k' : Kernel} (hbit : (k.task k.current_task).pending_signals &&& sig_bit sig ≠ 0)
      (hexit : exit_if (sig = RELIS_SIGKILL)
        (k.update_task k.current_task (lowered (sig_bit sig))) = .ok (true, k'))
      (hhandler : (k'.task k'.current_task).signal_handlers sig ≠ 0) :
      Turn k regs sig sigs (some { regs with rip := (k'.task k'.current_task).signal_handlers sig }) k'

theorem deliver_from_cons {regs : Registers} {sig : Nat} {sigs : List Nat} {r : Option Registers}
    (hk : deliver_from k regs (sig :: sigs) = .ok (r, k')) : Turn k regs sig sigs r k' := by
  rw [deliver_from] at hk
  split_ifs at hk with hbit
  · exact .skipped hbit hk
  obtain ⟨⟨here, k1⟩, hexit, hk1⟩ := bind_ok.mp hk
  cases here with
  | false =>
    cases hk1
    exact .killed hbit hexit
  | true =>
    dsimp only at hk1
    rw [if_neg (show ¬ (!true) = true by decide)] at hk1
    split_ifs at hk1 with hhandler
    · obtain ⟨⟨here1, k2⟩, hexit1, hk2⟩ := bind_ok.mp hk1
      cases here1 with
      | false =>
        cases hk2
        exact .exited hbit hexit hhandler hexit1
      | true => exact .dropped hbit hexit hhandler hexit1 hk2
    · cases hk1
      exact .handled hbit hexit hhandler

structure Lowers (k k' : Kernel) : Prop where
  task_structs : k'.task_structs = k.task_structs
  tasks : ∀ q, ∃ bits, settled (k'.task q) = settled (lowered bits (k.task q)) ∧
    (q ≠ k.current_task → bits = 0)

theorem Lowers.refl (k : Kernel) : Lowers k k :=
  ⟨rfl, fun _ => ⟨0, by rw [lowered_zero], fun _ => rfl⟩⟩

theorem Lowers.trans {k1 : Kernel} (h : Lowers k k1) (h1 : Lowers k1 k')
    (hcurrent : k1.current_task = k.current_task) : Lowers k k' := by
  refine ⟨h1.task_structs.trans h.task_structs, fun q => ?_⟩
  obtain ⟨bits, hq, hbits⟩ := h.tasks q
  obtain ⟨bits1, hq1, hbits1⟩ := h1.tasks q
  refine ⟨bits ||| bits1, ?_, fun hne => ?_⟩
  · rw [hq1, settled_lowered bits1 hq, lowered_lowered]
  · rw [hbits hne, hbits1 (by rwa [hcurrent])]
    rfl

theorem lowers_update (bits : BitVec 64) :
    Lowers k (k.update_task k.current_task (lowered bits)) := by
  refine ⟨rfl, fun q => ?_⟩
  rw [task_update]
  split_ifs with hq
  · exact ⟨bits, by rw [hq], fun hne => absurd hq hne⟩
  · exact ⟨0, by rw [lowered_zero], fun _ => rfl⟩

theorem lowers_exit {fatal here : Bool} (hk : exit_if fatal k = .ok (here, k')) : Lowers k k' := by
  obtain ⟨htasks, hstructs, -⟩ := exit_if_settled hk
  exact ⟨hstructs, fun q => ⟨0, by rw [lowered_zero, htasks q], fun _ => rfl⟩⟩

theorem deliver_from_settled {regs : Registers} {sigs : List Nat} {r : Option Registers}
    (hk : deliver_from k regs sigs = .ok (r, k')) : Lowers k k' := by
  induction sigs generalizing k with
  | nil =>
    cases hk
    exact .refl _
  | cons sig sigs ih =>
    have hcleared := lowers_update (k := k) (sig_bit sig)
    cases deliver_from_cons hk with
    | skipped _ hrest => exact ih hrest
    | killed _ hexit => exact hcleared.trans (lowers_exit hexit) rfl
    | exited _ hexit _ hexit1 =>
      exact (hcleared.trans (lowers_exit hexit) rfl).trans (lowers_exit hexit1)
        ((exit_if_settled hexit).2.2 rfl)
    | dropped _ hexit _ hexit1 hrest =>
      have hcurrent := (exit_if_settled hexit).2.2 rfl
      exact ((hcleared.trans (lowers_exit hexit) rfl).trans (lowers_exit hexit1) hcurrent).trans
        (ih hrest)
        (((exit_if_settled hexit1).2.2 rfl).trans hcurrent)
    | handled _ hexit _ => exact hcleared.trans (lowers_exit hexit) rfl

theorem deliver_signals_settled {regs : Registers} {r : Option Registers}
    (hk : deliver_signals k regs = .ok (r, k')) : Lowers k k' := by
  unfold deliver_signals at hk
  split at hk
  · cases hk
    exact .refl _
  · exact deliver_from_settled hk

/-! ## Steps -/

theorem steps_tasks {a' : Queues} {es : List Event} (h : Steps a es a') : a.tasks ⊆ a'.tasks := by
  induction h with
  | nil => exact fun _ hq => hq
  | cons hstep _ ih =>
    refine fun q hq => ih ?_
    cases hstep with
    | arrive c hp =>
      rw [arrive_tasks]
      exact List.mem_cons_of_mem _ hq
    | zombie => exact hq
    | select => rwa [select_tasks]

theorem step_sound {op : Op} (h : Sound k a) (hstep : step k op = .ok k') :
    ∃ a', Sound k' a' ∧ k.task_structs ⊆ k'.task_structs := by
  rcases step_spec h op with ⟨e, herr, -⟩ | ⟨k1, es, a1, hok, hmoved⟩
  · cases herr.symm.trans hstep
  · cases hok.symm.trans hstep
    refine ⟨a1, hmoved.sound, ?_⟩
    rw [h.facts.task_structs, hmoved.sound.facts.task_structs]
    exact steps_tasks hmoved.steps

theorem step_wake {p : Option Nat} (h : Sound k a) (hstep : step k (.wake_up_process p) = .ok k') :
    k' = k := by
  change (if _ then _ else _) = _ at hstep
  split_ifs at hstep with hp
  cases p with
  | none =>
    cases hstep
    rfl
  | some p =>
    have hp' : p ∈ a.tasks := by simpa [h.facts.task_structs] using hp
    cases (wake_up_process_spec h hp').symm.trans hstep
    rfl

def makesTask : Op → Bool
  | .kernel_thread .. | .sys_fork _ => true
  | _ => false

theorem step_task_structs {op : Op} (h : Sound k a) (hop : makesTask op = false)
    (hstep : step k op = .ok k') : k'.task_structs = k.task_structs := by
  cases op with
  | kernel_thread fn arg policy => cases hop
  | sys_fork regs => cases hop
  | sys_kill pid sig =>
    obtain ⟨ret, hk⟩ := map_snd_ok.mp hstep
    rcases sys_kill_cases h hk with rfl | ⟨target, -, -, rfl⟩
    · rfl
    · rfl
  | wake_up_process p => rw [step_wake h hstep]
  | sys_exit => exact schedule_task_structs (k := set_zombie k) hstep
  | schedule => exact schedule_task_structs hstep
  | thread_return => exact schedule_task_structs (k := set_zombie k) hstep
  | sys_sigaction sig handler =>
    cases hstep
    unfold sys_sigaction
    split
    · rfl
    · rfl
  | deliver_signals regs =>
    obtain ⟨r, hk⟩ := map_snd_ok.mp hstep
    exact (deliver_signals_settled hk).task_structs

def Made (k k' : Kernel) : Prop := k'.task_structs = k.heap_ptr.toNat :: k.task_structs ∧
  ((∃ fn arg policy files, settled (k'.task k.heap_ptr.toNat) =
      settled { new_thread k.heap_ptr.toNat k.next_pid k.mm.cr3 fn arg policy with files := files }) ∨
    ∃ cr3 regs, settled (k'.task k.heap_ptr.toNat) =
      settled (fork_task (k.task k.current_task) k.heap_ptr.toNat k.next_pid cr3 regs))

theorem current_ne_heap (h : Sound k a) : k.current_task ≠ k.heap_ptr.toNat := by
  intro heq
  refine h.fresh ?_
  rw [← heq]
  exact h.current_mem

theorem step_made {op : Op} (h : Sound k a) (hstep : step k op = .ok k') :
    k'.task_structs = k.task_structs ∨ Made k k' := by
  cases op with
  | kernel_thread fn arg policy =>
    obtain ⟨ret, hk⟩ := map_snd_ok.mp hstep
    rcases kernel_thread_tasks hk with ⟨-, rfl⟩ | ⟨files, htasks⟩
    · exact .inl rfl
    · have htask := htasks.task k.heap_ptr.toNat
      rw [Function.update_self] at htask
      exact .inr ⟨htasks.task_structs, .inl ⟨fn, arg, policy, files, settled_of_core htask⟩⟩
  | sys_fork regs =>
    obtain ⟨ret, hk⟩ := map_snd_ok.mp hstep
    rcases sys_fork_tasks hk (current_ne_heap h) with ⟨-, rfl⟩ | ⟨cr3, htasks⟩
    · exact .inl rfl
    · have htask := htasks.task k.heap_ptr.toNat
      rw [Function.update_self] at htask
      exact .inr ⟨htasks.task_structs, .inr ⟨cr3, regs, settled_of_core htask⟩⟩
  | _ => exact .inl (step_task_structs h rfl hstep)

def signalCall : Op → Bool
  | .sys_sigaction .. | .deliver_signals _ => true
  | _ => false

def InRange (bits : BitVec 64) : Prop := ∀ i, bits.getLsbD i = true → 1 ≤ i ∧ i < MAX_SIGNALS

theorem inRange_zero : InRange 0 := by
  intro i hi
  simp at hi

theorem eq_of_getLsbD_sig_bit {sig i : Nat} (h : (sig_bit sig).getLsbD i = true) : i = sig := by
  change (BitVec.twoPow 64 sig).getLsbD i = true at h
  rw [BitVec.getLsbD_twoPow, Bool.and_eq_true, decide_eq_true_eq, decide_eq_true_eq] at h
  exact h.2.symm

theorem inRange_sig_bit {sig : Nat} (h : 1 ≤ sig ∧ sig < MAX_SIGNALS) : InRange (sig_bit sig) := by
  intro i hi
  rwa [eq_of_getLsbD_sig_bit hi]

theorem raised_zero (t : Task) : raised 0 t = t := by
  unfold raised
  simp

/-- A task that exists is left as it is, but for signals that it is sent. -/
def Sent (k k' : Kernel) (q : Nat) : Prop :=
  ∃ bits, InRange bits ∧ settled (k'.task q) = settled (raised bits (k.task q))

theorem Sent.of_settled (h : settled (k'.task q) = settled (k.task q)) : Sent k k' q :=
  ⟨0, inRange_zero, by rw [raised_zero, h]⟩

theorem step_sent {op : Op} (h : Sound k a) (hstep : step k op = .ok k') (hq : q ∈ k.task_structs)
    (hop : q = k.current_task → signalCall op = false) : Sent k k' q := by
  have hmem : q ∈ a.tasks := h.facts.task_structs ▸ hq
  have hold : q ≠ k.heap_ptr.toNat := by
    rintro rfl
    exact h.fresh hmem
  cases op with
  | kernel_thread fn arg policy =>
    obtain ⟨ret, hk⟩ := map_snd_ok.mp hstep
    rcases kernel_thread_tasks hk with ⟨-, rfl⟩ | ⟨files, htasks⟩
    · exact .of_settled rfl
    · refine .of_settled (settled_of_core ?_)
      rw [htasks.task q, Function.update_of_ne hold]
  | sys_fork regs =>
    obtain ⟨ret, hk⟩ := map_snd_ok.mp hstep
    rcases sys_fork_tasks hk (current_ne_heap h) with ⟨-, rfl⟩ | ⟨cr3, htasks⟩
    · exact .of_settled rfl
    · have htask := htasks.task q
      rw [Function.update_of_ne hold] at htask
      by_cases hparent : q = k.current_task
      · refine ⟨sig_bit RELIS_SIGCHLD, inRange_sig_bit (by decide), settled_of_core ?_⟩
        rw [htask, hparent, Function.update_self]
      · refine .of_settled (settled_of_core ?_)
        rw [htask, Function.update_of_ne hparent]
  | sys_kill pid sig =>
    obtain ⟨ret, hk⟩ := map_snd_ok.mp hstep
    rcases sys_kill_cases h hk with rfl | ⟨target, hlo, hhi, rfl⟩
    · exact .of_settled rfl
    · by_cases htarget : q = target
      · refine ⟨sig_bit sig.toNat, inRange_sig_bit ⟨hlo, hhi⟩, ?_⟩
        rw [task_update, if_pos htarget, htarget]
      · refine .of_settled ?_
        rw [task_update, if_neg htarget]
  | wake_up_process p =>
    cases step_wake h hstep
    exact .of_settled rfl
  | sys_exit => exact .of_settled (exit_settled hstep q)
  | schedule => exact .of_settled (schedule_settled hstep q)
  | thread_return => exact .of_settled (exit_settled hstep q)
  | sys_sigaction sig handler =>
    cases hstep
    unfold sys_sigaction
    split
    · exact .of_settled rfl
    · refine .of_settled ?_
      have hne : q ≠ k.current_task := fun heq => Bool.noConfusion (hop heq)
      dsimp only
      rw [task_update, if_neg hne]
  | deliver_signals regs =>
    obtain ⟨r, hk⟩ := map_snd_ok.mp hstep
    have hne : q ≠ k.current_task := fun heq => Bool.noConfusion (hop heq)
    obtain ⟨bits, hbits, hzero⟩ := (deliver_signals_settled hk).tasks q
    refine .of_settled ?_
    rw [hbits, hzero hne, lowered_zero]

theorem step_task_cases {op : Op} (h : Sound k a) (hstep : step k op = .ok k')
    (hq : q ∈ k.task_structs) :
    Sent k k' q ∨ q = k.current_task ∧
      ((∃ sig handler, op = .sys_sigaction sig handler ∧ k' = (sys_sigaction k sig handler).2) ∨
        ∃ regs r, op = .deliver_signals regs ∧ deliver_signals k regs = .ok (r, k')) := by
  by_cases hop : q = k.current_task → signalCall op = false
  · exact .inl (step_sent h hstep hq hop)
  rw [Classical.not_imp] at hop
  refine .inr ⟨hop.1, ?_⟩
  cases op with
  | sys_sigaction sig handler =>
    cases hstep
    exact .inl ⟨sig, handler, rfl, rfl⟩
  | deliver_signals regs =>
    obtain ⟨r, hk⟩ := map_snd_ok.mp hstep
    exact .inr ⟨regs, r, rfl, hk⟩
  | kernel_thread | sys_fork | sys_kill | wake_up_process | sys_exit | schedule | thread_return =>
    exact absurd rfl hop.2

theorem sys_sigaction_task (k : Kernel) (sig : Int) (handler : BitVec 64) (q : Nat) : ∃ handlers,
    (sys_sigaction k sig handler).2.task q = { k.task q with signal_handlers := handlers } := by
  unfold sys_sigaction
  split
  · exact ⟨_, rfl⟩
  · dsimp only
    rw [task_update]
    split_ifs with hq
    · rw [hq]
      exact ⟨_, rfl⟩
    · exact ⟨_, rfl⟩

/-! ## Work of the running task -/

/-- The task that runs changes memory, files and fields of its own, but no list and no other task. -/
structure Works (k k' : Kernel) : Prop where
  others : ∀ q, q ≠ k.current_task → k'.task q = k.task q
  node_at : ∀ n, k'.node_at n = k.node_at n
  alike : Alike { k with heap_ptr := k'.heap_ptr } k'
  heap : k.heap_ptr.toNat ≤ k'.heap_ptr.toNat
  bound : k'.heap_ptr.toNat ≤ 4194319

theorem works_sound (h : Sound k a) (hworks : Works k k') : Sound k' a := by
  have hfacts := h.facts
  have hheap : Facts { k with heap_ptr := k'.heap_ptr } a :=
    ⟨hfacts.task_structs, hfacts.current_task, hfacts.current_mem, hfacts.cfs, hfacts.rt,
      hfacts.nr_running, hfacts.pids, fun p hp => (hfacts.heap p hp).trans hworks.heap,
      hfacts.room.trans hworks.heap, hworks.bound, hfacts.awake⟩
  exact ⟨hheap.of_alike hworks.alike, h.rings.of_same hworks.node_at⟩

theorem works_update (h : Sound k a) (mm : Mm) {f : Task → Task}
    (hentity : (f (k.task k.current_task)).entity = (k.task k.current_task).entity)
    (htasks : (f (k.task k.current_task)).tasks = (k.task k.current_task).tasks)
    (hpid : (f (k.task k.current_task)).pid = (k.task k.current_task).pid)
    (hclass : (f (k.task k.current_task)).sched_class = (k.task k.current_task).sched_class)
    (hstate : (f (k.task k.current_task)).state = (k.task k.current_task).state) :
    Works k (Kernel.update_task { k with mm := mm } k.current_task f) := by
  refine ⟨fun q hq => ?_, fun n => ?_, ?_, Nat.le_refl _, h.facts.bound⟩
  · rw [task_update, if_neg hq]
  · exact node_at_update (k := { k with mm := mm }) hentity htasks
  · have hupdate := Alike.of_update (k := { k with mm := mm }) hpid hclass fun hs => hstate ▸ hs
    exact ⟨hupdate.task_structs, hupdate.current_task, hupdate.nr_running, hupdate.next_pid,
      rfl, hupdate.pid, hupdate.sched_class, hupdate.state⟩

theorem works_of_mm (h : Sound k a) (mm : Mm) : Works k { k with mm := mm } :=
  ⟨fun _ _ => rfl, fun _ => rfl, ⟨rfl, rfl, rfl, rfl, rfl, fun _ => rfl, fun _ => rfl, fun _ => id⟩,
    Nat.le_refl _, h.facts.bound⟩

theorem exec_user_program_works {elf_data : Mem} {entry : Option (BitVec 64 × BitVec 64)}
    (h : Sound k a) (hk : exec_user_program k elf_data = .ok (entry, k')) :
    k' = k ∨ Works k k' := by
  unfold exec_user_program at hk
  dsimp only at hk
  split_ifs at hk with hmagic
  · cases hk
    exact .inl rfl
  · obtain ⟨⟨new_cr3, mm⟩, -, hk1⟩ := bind_ok.mp hk
    cases hk1
    exact .inr (works_update h mm rfl rfl rfl rfl rfl)

inductive Goes (k k' : Kernel) : Prop
  | call (op : Op) (h : step k op = .ok k') : Goes k k'
  | work (h : Works k k') : Goes k k'

theorem Goes.sound (h : Goes k k') (hsound : Sound k a) :
    ∃ a', Sound k' a' ∧ k.task_structs ⊆ k'.task_structs := by
  cases h with
  | call op hstep => exact step_sound hsound hstep
  | work hworks =>
    refine ⟨a, works_sound hsound hworks, ?_⟩
    rw [show k'.task_structs = k.task_structs from hworks.alike.task_structs]
    exact fun _ hq => hq

theorem goes_sound (h : Relation.ReflTransGen Goes k k') (hsound : Sound k a) :
    ∃ a', Sound k' a' := by
  induction h with
  | refl => exact ⟨a, hsound⟩
  | tail _ hgoes ih =>
    obtain ⟨a1, hsound1⟩ := ih
    obtain ⟨a2, hsound2, -⟩ := hgoes.sound hsound1
    exact ⟨a2, hsound2⟩

end Relis.Process
