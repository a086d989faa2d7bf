import Mathlib.Tactic
import Relis.Code.Irq

/-!
# Interrupts and locks

Of the handlers only that of the NIC takes a lock. If it comes while `printk` holds
`console_lock`, it waits for ever.
-/

open Relis.Code Relis.Code.Irq Relis.Nest

namespace Relis.Irq

variable {held : List Lock} {A : Lock → Prop} {k : Routine}

/-! ## What the code takes and releases -/

theorem tidy_write (f : Machine → Machine) (hk : Tidy held k) : Tidy held (write f k) := fun _ => hk

theorem tidy_kernel_step (f : Kernel → Except Halt Kernel) (hk : Tidy held k) :
    Tidy held (kernel_step f k) := by
  intro m
  dsimp only
  split
  · exact hk
  · trivial

theorem tidy_unlock {l : Lock} (hk : Tidy held k) : Tidy (l :: held) (.unlock l k) :=
  ⟨List.mem_cons_self, by rwa [List.erase_cons_head]⟩

theorem tidy_print_chars (text : List (BitVec 8)) (hk : Tidy held k) :
    Tidy held (print_chars text k) := by
  induction text with
  | nil => exact hk
  | cons c text ih => exact tidy_write _ ih

theorem tidy_printk (text : List (BitVec 8)) (h : .console_lock ∉ held) (hk : Tidy held k) :
    Tidy held (printk text k) := by
  refine ⟨h, tidy_write _ (tidy_print_chars _ (tidy_write _ ?_))⟩
  exact tidy_print_chars _ (tidy_print_chars _ (tidy_unlock hk))

theorem tidy_kmalloc (size : BitVec 64) {k : Option Nat → Routine} (h : .heap_lock ∉ held)
    (hk : ∀ ptr, Tidy held (k ptr)) : Tidy held (kmalloc size k) := by
  refine ⟨h, fun m => ?_⟩
  dsimp only
  split
  · exact tidy_unlock (hk none)
  · exact tidy_write _ (tidy_unlock (hk _))

theorem tidy_kmalloc_object (size : BitVec 64) {k : Nat → Routine} (h : .heap_lock ∉ held)
    (hk : ∀ ptr, Tidy held (k ptr)) : Tidy held (kmalloc_object size k) := by
  refine tidy_kmalloc size h fun ptr => ?_
  cases ptr with
  | none => trivial
  | some ptr => exact hk ptr

theorem tidy_setup_file (t fd : Nat) (fop : FileOperations) (h : .heap_lock ∉ held)
    (hk : Tidy held k) : Tidy held (setup_file t fd fop k) :=
  tidy_kmalloc_object _ h fun _ => tidy_kmalloc_object _ h fun _ => tidy_kernel_step _ hk

theorem tidy_kernel_thread (fn arg : BitVec 64) (policy : BitVec 32) :
    Tidy [] (kernel_thread fn arg policy .done) := by
  refine ⟨by simp, tidy_kmalloc _ (by simp) fun p => ?_⟩
  have hend : Tidy [.sched_lock] (.unlock .sched_lock .done : Routine) := tidy_unlock rfl
  cases p with
  | none => exact hend
  | some p =>
    refine tidy_kernel_step _ ?_
    refine tidy_setup_file _ _ _ (by simp)
      (tidy_setup_file _ _ _ (by simp) (tidy_setup_file _ _ _ (by simp) ?_))
    exact tidy_kernel_step _ (tidy_kernel_step _ hend)

theorem tidy_keyboard_poll : Tidy [] (keyboard_poll .done) := by
  refine ⟨by simp, fun m => ?_⟩
  dsimp only
  split_ifs
  · exact fun m => tidy_write _ (tidy_unlock rfl)
  · exact tidy_unlock rfl

theorem tidy_call (f : Call) : Tidy [] (call f) := by
  cases f with
  | printk text => exact tidy_printk text (by simp) rfl
  | kmalloc size => exact tidy_kmalloc size (k := fun _ => .done) (by simp) fun _ => rfl
  | kernel_thread fn arg policy => exact tidy_kernel_thread fn arg policy
  | wake_up_process p => exact ⟨by simp, tidy_kernel_step _ (tidy_unlock rfl)⟩
  | schedule => exact ⟨by simp, tidy_kernel_step _ (tidy_unlock rfl)⟩
  | keyboard_init =>
    exact ⟨by simp, tidy_write _ (tidy_unlock (tidy_write _ (tidy_printk _ (by simp) rfl)))⟩
  | keyboard_poll => exact tidy_keyboard_poll
  | request_irq irq h => exact tidy_write _ rfl
  | sti => exact rfl
  | cli => exact rfl
  | other f => exact tidy_write _ rfl

theorem takes_write (f : Machine → Machine) (hk : Takes A k) : Takes A (write f k) := fun _ => hk

theorem takes_print_chars (text : List (BitVec 8)) (hk : Takes A k) :
    Takes A (print_chars text k) := by
  induction text with
  | nil => exact hk
  | cons c text ih => exact takes_write _ ih

theorem takes_printk (text : List (BitVec 8)) (h : A .console_lock) (hk : Takes A k) :
    Takes A (printk text k) := by
  refine ⟨h, takes_write _ (takes_print_chars _ (takes_write _ ?_))⟩
  exact takes_print_chars _ (takes_print_chars _ hk)

theorem tidy_nic_rx_poll : Tidy [] (nic_rx_poll .done) := by
  intro m m
  dsimp only
  split_ifs
  · exact fun m => tidy_printk _ (by simp) (tidy_write _ (tidy_write _ rfl))
  · exact rfl

theorem takes_nic_rx_poll (h : A .console_lock) : Takes A (nic_rx_poll .done) := by
  intro m m
  dsimp only
  split_ifs
  · exact fun m => takes_printk _ h (takes_write _ (takes_write _ trivial))
  · trivial

theorem tidy_handler (h : Handler) : Tidy [] (handler h) := by
  cases h with
  | timer_callback => exact tidy_write _ (tidy_write _ rfl)
  | kb_irq => exact tidy_write _ rfl
  | nic_irq_handler =>
    intro m
    dsimp only
    split_ifs
    · exact tidy_nic_rx_poll
    · exact rfl

theorem takes_handler (h : Handler) (hA : h = .nic_irq_handler → A .console_lock) :
    Takes A (handler h) := by
  cases h with
  | timer_callback => exact takes_write _ (takes_write _ trivial)
  | kb_irq => exact takes_write _ trivial
  | nic_irq_handler =>
    intro m
    dsimp only
    split_ifs
    · exact takes_nic_rx_poll (hA rfl)
    · trivial

theorem tidy_dispatch_irq (irq : Nat) (m : Machine) : Tidy [] (dispatch_irq irq m) := by
  unfold dispatch_irq
  split_ifs
  · split
    · exact tidy_handler _
    · exact rfl
  · exact rfl

/-! ## Runs -/

abbrev Cpu : Type := Nest.Cpu Lock Machine

abbrev Event : Type := Nest.Event Call Nat Device

/-- An interrupt that the handler of the NIC serves is taken only while `console_lock` is free. -/
def ConsoleFree (c : Cpu) : Event → Prop
  | .interrupt irq => c.enabled = true → c.data.irq_handlers irq = some .nic_irq_handler →
    c.word .console_lock = false
  | _ => True

theorem takes_dispatch_irq {c : Cpu} {irq : Nat} (hc : Sound c) (h : ConsoleFree c (.interrupt irq))
    (henabled : c.enabled = true) : Takes (· ∉ c.inner.held) (dispatch_irq irq c.data) := by
  unfold dispatch_irq
  split_ifs
  · split
    · next handler hirq =>
      refine takes_handler _ fun hnic hheld => ?_
      have hfree := h henabled (by rw [hirq, hnic])
      have htaken := (hc.word .console_lock).mpr (.inl hheld)
      rw [hfree] at htaken
      cases htaken
    · trivial
  · trivial

/-- As long as interrupts of the NIC are taken only while `console_lock` is free, no handler waits
for a lock of what it has interrupted. -/
theorem run_not_spins (m : Machine) {events : List Event}
    (h : Meets system ConsoleFree (.start Lock m) events) :
    ¬Spins (run system (.start Lock m) events) := by
  refine Sound.not_spins (Sound.run (C := ConsoleFree) (sound_start m) tidy_call ?_ ?_ h)
  · exact tidy_dispatch_irq
  · exact fun c irq => takes_dispatch_irq

def nicInterrupt (irq : Nat) : List Event := [.interrupt irq, .exec, .exec, .exec, .exec]

theorem nic_interrupt_spins {c : Cpu} {irq : Nat} (hsound : Sound c) (henabled : c.enabled = true)
    (hirq : irq < IDT_ENTRIES) (hnic : c.data.irq_handlers irq = some .nic_irq_handler)
    (hheld : .console_lock ∈ c.inner.held) (hicr : c.data.icr ≠ 0)
    (hdone : c.data.nic.done (next_tail c.data.nic).toNat = true) (events : List Event) :
    Spins (run system (run system c (nicInterrupt irq)) events) := by
  obtain ⟨m, hm⟩ : ∃ m, m = { c.data with icr := 0 } := ⟨_, rfl⟩
  have htaken : Nest.step system c (.interrupt irq) =
      ⟨c.word, c.data, false, ⟨nic_irq_handler, []⟩, c.inner :: c.outer⟩ := by
    rw [Nest.step, if_pos henabled]
    show (⟨c.word, c.data, false, ⟨dispatch_irq irq c.data, []⟩, _⟩ : Cpu) = _
    rw [dispatch_irq, if_pos hirq, hnic]
    rfl
  have hcause : Nest.exec ⟨c.word, c.data, false, ⟨nic_irq_handler, []⟩, c.inner :: c.outer⟩ =
      (⟨c.word, m, false, ⟨nic_rx_poll .done, []⟩, c.inner :: c.outer⟩ : Cpu) := by
    show (⟨c.word, _, false, ⟨if c.data.icr ≠ 0 then _ else _, []⟩, _⟩ : Cpu) = _
    rw [if_pos hicr, hm]
  have hpacket : m.nic.done (next_tail m.nic).toNat = true := by rwa [hm]
  obtain ⟨k, hk⟩ : ∃ k, run system c (nicInterrupt irq) =
      ⟨c.word, m, false, ⟨.lock .console_lock k, []⟩, c.inner :: c.outer⟩ := by
    show ∃ k, Nest.exec (Nest.exec (Nest.exec (Nest.exec (Nest.step system c (.interrupt irq))))) = _
    rw [htaken, hcause]
    show ∃ k,
      Nest.exec ⟨c.word, m, false, ⟨if m.nic.done (next_tail m.nic).toNat then _ else _, []⟩, _⟩ = _
    rw [if_pos hpacket]
    exact ⟨_, rfl⟩
  rw [hk]
  refine spins_run ⟨.console_lock, k, rfl, c.inner, List.mem_cons_self, hheld⟩ ?_ rfl events
  intro o ho l hl
  rcases List.mem_cons.mp ho with rfl | ho
  · exact (hsound.word l).mpr (.inl hl)
  · exact (hsound.word l).mpr (.inr ⟨o, ho, hl⟩)

def bootMachine : Machine where
  kernel := Kernel.boot ⟨.zero, fun _ => 0, 0, none⟩ 0
  console := ⟨⟨0, 0, 0, ⟨fun _ => 0, []⟩, 0⟩, []⟩
  kb := .zero
  kb_data := 0
  nic := ⟨fun _ => .zero, 0, 0, 512, 0, 31, 0, fun _ => [], [], []⟩
  icr := 0
  jiffies := 0
  irq_handlers := fun _ => none

def nicReady : List Event := [.call (.request_irq 43 .nic_irq_handler), .exec, .call .sti, .exec]

/-- A packet comes in between two calls, and the handler takes `console_lock` for its message. -/
def betweenCalls : List Event :=
  [.world (.receive ⟨60, []⟩ 1), .interrupt 43, .exec, .exec, .exec, .exec, .exec]

theorem run_between_calls :
    Meets system ConsoleFree (.start Lock bootMachine) (nicReady ++ betweenCalls) ∧
    ¬Spins (run system (.start Lock bootMachine) (nicReady ++ betweenCalls)) := by
  have hready : Meets system ConsoleFree (.start Lock bootMachine) nicReady := by
    apply meets_of_forall
    simp [nicReady, ConsoleFree]
  have hexecs : ∀ c, Meets system ConsoleFree c [.exec, .exec, .exec, .exec, .exec] := by
    apply meets_of_forall
    simp [ConsoleFree]
  have hbetween : Meets system ConsoleFree (run system (.start Lock bootMachine) nicReady)
      betweenCalls := ⟨trivial, fun _ _ => rfl, hexecs _⟩
  exact ⟨hready.append hbetween, run_not_spins bootMachine (hready.append hbetween)⟩

/-- A packet comes in while `printk("Interrupts enabled")` holds `console_lock`. -/
def insidePrintk : List Event :=
  [.call (.printk (literal ['I', 'n', 't', 'e', 'r', 'r', 'u', 'p', 't', 's', ' ', 'e', 'n', 'a', 'b', 'l', 'e', 'd'])),
    .exec, .world (.receive ⟨60, []⟩ 1)]

/-- The handler waits for `console_lock`, whatever comes after. -/
theorem run_inside_printk :
    Spins (run system (.start Lock bootMachine) (nicReady ++ insidePrintk ++ nicInterrupt 43)) ∧
    ∀ events,
      Spins (run system (.start Lock bootMachine)
      (nicReady ++ insidePrintk ++ nicInterrupt 43 ++ events)) := by
  have hmeets : Meets system ConsoleFree (.start Lock bootMachine) (nicReady ++ insidePrintk) := by
    apply meets_of_forall
    simp [nicReady, insidePrintk, ConsoleFree]
  have hsound : Sound (run system (.start Lock bootMachine) (nicReady ++ insidePrintk)) :=
    Sound.run (sound_start _) tidy_call tidy_dispatch_irq (fun c irq => takes_dispatch_irq) hmeets
  have hspins := nic_interrupt_spins hsound rfl (show 43 < IDT_ENTRIES by decide) rfl
    List.mem_cons_self (by decide)
    (by decide)
  simp only [run, List.foldl_append] at hspins ⊢
  exact ⟨hspins [], hspins⟩

end Relis.Irq
