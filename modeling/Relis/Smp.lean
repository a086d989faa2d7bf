import Mathlib.Tactic
import Relis.Code.Smp

/-!
# The stacks of the other processors

Nobody tells the first processor that a stack has been taken. A processor has its own stack
exactly if it gets to the load before the next store.
-/

open Relis.Code.Smp

namespace Relis.Smp

variable {s s' : State} {e : Event} {j : Nat} {r : BitVec 64}

def start (icr_hi : BitVec 32) (cr3_ptr stack_ptr ap_stacks : BitVec 64) : State :=
  ⟨0, icr_hi, cr3_ptr, stack_ptr, ap_stacks, fun _ => .off, 1⟩

/-- The `i` of the loop, from its store on. -/
def index (s : State) : Nat := (s.pc + 6) / 7

def rsp : Ap → Option (BitVec 64)
  | .load_entry _ r | .ap_main _ r | .online _ r => some r
  | _ => none

def Takes (s : State) (j : Nat) : Prop := rsp (s.ap j) = none ∧ rsp ((s.ap j).step s) ≠ none

/-- When a processor takes a stack, the first one is still at its turn. -/
def Timely : State → List Event → Prop
  | _, [] => True
  | s, e :: events => (∀ j, e = .ap j → Takes s j → index s = j) ∧ Timely (step s e) events

def OwnStacks (s : State) : Prop := ∀ j r, rsp (s.ap j) = some r → r = s.stack j

/-! ## The loop -/

theorem op_cases : ∀ pc < 21,
    (pc % 7 = 0 ∧ smp_boot_apus[pc]? = some (.store_stack (pc / 7 + 1))) ∨
    ((pc % 7 = 1 ∨ pc % 7 = 3 ∨ pc % 7 = 5) ∧
      smp_boot_apus[pc]? = some (.lapic_write LAPIC_ICR_HI (BitVec.ofNat 32 (pc / 7 + 1) <<< 24))) ∨
    (pc % 7 = 2 ∧ smp_boot_apus[pc]? = some (.lapic_write LAPIC_ICR_LO 0x4500)) ∨
    ((pc % 7 = 4 ∨ pc % 7 = 6) ∧ smp_boot_apus[pc]? = some (.lapic_write LAPIC_ICR_LO 0x4608)) := by
  decide

/-- A processor is started at its turn. -/
structure Booting (s : State) : Prop where
  pc : s.pc ≤ 21
  stack : 0 < s.pc → s.stack_ptr = s.stack (index s)
  target : 2 ≤ s.pc % 7 → (s.icr_hi >>> 24).toNat = index s
  reset : ∀ j, s.ap j ≠ .off → 0 < j ∧ 7 * j ≤ s.pc + 4
  taken : ∀ j r, rsp (s.ap j) = some r → ∃ i, j ≤ i ∧ i ≤ index s ∧ r = s.stack i

theorem Booting.next (h : Booting s) (hpc : s.pc < 21) (hpc' : s'.pc = s.pc + 1)
    (hbase : s'.ap_stacks = s.ap_stacks) (hstack : s'.stack_ptr = s'.stack (index s'))
    (htarget : 2 ≤ s'.pc % 7 → (s'.icr_hi >>> 24).toNat = index s')
    (hap : ∀ j, s'.ap j = s.ap j ∨ rsp (s'.ap j) = none ∧ rsp (s.ap j) = none ∧ 0 < j ∧
      7 * j ≤ s.pc + 5) : Booting s' ∧ ∀ j, rsp (s'.ap j) = rsp (s.ap j) := by
  have hrsp : ∀ j, rsp (s'.ap j) = rsp (s.ap j) := fun j => by
    rcases hap j with heq | ⟨hnone, hnone', -⟩
    · rw [heq]
    · rw [hnone, hnone']
  refine ⟨⟨by omega, fun _ => hstack, htarget, fun j hj => ?_, fun j r hr => ?_⟩, hrsp⟩
  · rcases hap j with heq | ⟨-, -, hpos, hle⟩
    · have := h.reset j (heq ▸ hj)
      omega
    · omega
  · rw [hrsp] at hr
    obtain ⟨i, hji, hi, rfl⟩ := h.taken j r hr
    refine ⟨i, hji, hi.trans ?_, by rw [State.stack, State.stack, hbase]⟩
    unfold index
    omega

theorem step_bsp {op : BspOp} (hop : smp_boot_apus[s.pc]? = some op) :
    step s .bsp = { s.exec op with pc := s.pc + 1 } := by
  simp only [step, hop]

theorem exec_store (i : Nat) : s.exec (.store_stack i) = { s with stack_ptr := s.stack i } := rfl

theorem exec_hi (v : BitVec 32) : s.exec (.lapic_write LAPIC_ICR_HI v) = { s with icr_hi := v } := rfl

theorem exec_init : s.exec (.lapic_write LAPIC_ICR_LO 0x4500) =
    { s with ap := Function.update s.ap (s.icr_hi >>> 24).toNat .wait_sipi } := rfl

theorem exec_startup : s.exec (.lapic_write LAPIC_ICR_LO 0x4608) =
    if s.ap (s.icr_hi >>> 24).toNat = .wait_sipi then
      { s with ap := Function.update s.ap (s.icr_hi >>> 24).toNat .wait_cr3 } else s := by
  simp [State.exec, State.ipi, LAPIC_ICR_LO, LAPIC_ICR_HI]

theorem Booting.bsp (h : Booting s) :
    Booting (step s .bsp) ∧ ∀ j, rsp ((step s .bsp).ap j) = rsp (s.ap j) := by
  have hi : s.pc % 7 ≠ 0 → index s = s.pc / 7 + 1 := by
    unfold index
    omega
  have hnext : (s.pc + 1 + 6) / 7 = s.pc / 7 + 1 := by omega
  by_cases hpc : s.pc < 21
  · have hstack : s.pc % 7 ≠ 0 → s.stack_ptr = s.stack (s.pc / 7 + 1) := fun hmod => by
      rw [← hi hmod]
      exact h.stack (by omega)
    have htarget : 2 ≤ s.pc % 7 → (s.icr_hi >>> 24).toNat = s.pc / 7 + 1 := fun hmod => by
      rw [h.target hmod, hi (by omega)]
    rcases op_cases s.pc hpc with ⟨hmod, hop⟩ | ⟨hmod, hop⟩ | ⟨hmod, hop⟩ | ⟨hmod, hop⟩
    · rw [step_bsp hop, exec_store]
      refine h.next hpc rfl rfl ?_ (fun htwo => ?_) fun j => .inl rfl
      · rw [index, hnext]
        rfl
      · dsimp only at htwo
        omega
    · rw [step_bsp hop, exec_hi]
      refine h.next hpc rfl rfl ?_ (fun _ => ?_) fun j => .inl rfl
      · rw [index, hnext]
        exact hstack (by omega)
      · rw [index, hnext]
        have hlt : s.pc / 7 < 3 := by omega
        dsimp only
        interval_cases s.pc / 7 <;> rfl
    · rw [step_bsp hop, exec_init, htarget (by omega)]
      refine h.next hpc rfl rfl ?_ (fun _ => ?_) fun j => ?_
      · rw [index, hnext]
        exact hstack (by omega)
      · rw [index, hnext]
        exact htarget (by omega)
      · dsimp only
        by_cases hj : j = s.pc / 7 + 1
        · -- It has not been reset before.
          have hoff : s.ap j = .off := by
            by_contra hne
            have := h.reset j hne
            omega
          rw [hj, Function.update_self, ← hj, hoff]
          exact .inr ⟨rfl, rfl, by omega, by omega⟩
        · exact .inl (Function.update_of_ne hj ..)
    · rw [step_bsp hop, exec_startup, htarget (by omega)]
      refine h.next hpc rfl ?_ ?_ (fun _ => ?_) fun j => ?_
      · split_ifs <;> rfl
      · rw [index, hnext]
        split_ifs <;> exact hstack (by omega)
      · rw [index, hnext]
        split_ifs <;> exact htarget (by omega)
      · split_ifs with hwait
        · dsimp only
          by_cases hj : j = s.pc / 7 + 1
          · rw [hj, Function.update_self, hwait]
            exact .inr ⟨rfl, rfl, by omega, by omega⟩
          · exact .inl (Function.update_of_ne hj ..)
        · exact .inl rfl
  · have hnone : smp_boot_apus[s.pc]? = none := List.getElem?_eq_none (Nat.le_of_not_lt hpc)
    unfold step
    dsimp only
    rw [hnone]
    exact ⟨h, fun _ => rfl⟩

/-! ## Runs -/

theorem rsp_step {a : Ap} (h : rsp a = some r) : rsp (a.step s) = some r := by
  cases a with
  | load_entry | ap_main | online => exact h
  | _ => cases h

theorem rsp_new {a : Ap} (hnone : rsp a = none) (h : rsp (a.step s) = some r) :
    (∃ cr3, a = .load_stack cr3) ∧ r = s.stack_ptr := by
  cases a with
  | load_stack cr3 =>
    unfold Ap.step at h
    dsimp only at h
    split_ifs at h
    · cases h
    · exact ⟨⟨cr3, rfl⟩, (Option.some.inj h).symm⟩
  | wait_cr3 =>
    unfold Ap.step at h
    dsimp only at h
    split_ifs at h <;> cases h
  | load_entry | ap_main | online => cases hnone
  | _ => cases h

theorem Booting.takes (h : Booting s) (ht : Takes s j) :
    j ≤ index s ∧ index s ≤ 3 ∧ s.stack_ptr = s.stack (index s) := by
  obtain ⟨hnone, hsome⟩ := ht
  obtain ⟨r, hr⟩ := Option.ne_none_iff_exists'.mp hsome
  obtain ⟨⟨cr3, hcode⟩, -⟩ := rsp_new hnone hr
  have hreset := h.reset j (by rw [hcode]; simp)
  have hpc := h.pc
  refine ⟨?_, ?_, h.stack (by omega)⟩ <;> unfold index <;> omega

theorem step_ap (s : State) (i j : Nat) :
    (step s (.ap j)).ap i = if i = j then (s.ap i).step s else s.ap i := by
  refine (Function.update_apply ..).trans ?_
  split_ifs with hij
  · rw [hij]
  · rfl

theorem Booting.rsp_ap (h : Booting s) (i j : Nat) (r : BitVec 64) :
    rsp ((step s (.ap j)).ap i) = some r ↔
    rsp (s.ap i) = some r ∨ (i = j ∧ Takes s j) ∧ r = s.stack (index s) := by
  rw [step_ap]
  split_ifs with hij
  · subst hij
    cases hold : rsp (s.ap i) with
    | some r' => simp [rsp_step hold, Takes, hold]
    | none =>
      constructor
      · intro hr
        have ht : Takes s i := ⟨hold, by simp [hr]⟩
        exact .inr ⟨⟨rfl, ht⟩, (rsp_new hold hr).2.trans (h.takes ht).2.2⟩
      · rintro (hr | ⟨⟨-, ht⟩, rfl⟩)
        · cases hr
        · obtain ⟨r, hr⟩ := Option.ne_none_iff_exists'.mp ht.2
          rw [hr, (rsp_new hold hr).2, (h.takes ht).2.2]
  · simp [hij]

theorem Booting.step (h : Booting s) (e : Event) : Booting (step s e) := by
  cases e with
  | bsp => exact h.bsp.1
  | ap j =>
    refine ⟨h.pc, h.stack, h.target, fun i hi => h.reset i fun hoff => hi ?_, fun i r hr => ?_⟩
    · rw [step_ap, hoff]
      exact ite_self _
    · rcases (h.rsp_ap i j r).mp hr with hold | ⟨⟨rfl, ht⟩, rfl⟩
      · exact h.taken i r hold
      · exact ⟨index s, (h.takes ht).1, le_rfl, rfl⟩

theorem step_stack (s : State) (e : Event) (i : Nat) : (step s e).stack i = s.stack i := by
  cases e with
  | ap j => rfl
  | bsp =>
    cases hop : smp_boot_apus[s.pc]? with
    | none => simp [Code.Smp.step, hop]
    | some op =>
      rw [step_bsp hop]
      unfold State.stack
      cases op with
      | store_stack => rw [exec_store]
      | lapic_write =>
        unfold State.exec State.ipi
        dsimp only
        split_ifs <;> rfl

theorem stack_inj {i : Nat} (hi : i ≤ 3) (hj : j ≤ 3) (h : s.stack i = s.stack j) : i = j := by
  unfold State.stack at h
  have := congrArg BitVec.toNat (add_left_cancel h)
  rw [BitVec.toNat_ofNat, BitVec.toNat_ofNat] at this
  omega

theorem ownStacks_step (h : Booting s) (e : Event) :
    OwnStacks (step s e) ↔ OwnStacks s ∧ ∀ j, e = .ap j → Takes s j → index s = j := by
  simp only [OwnStacks, step_stack]
  cases e with
  | bsp => simp [h.bsp.2]
  | ap j =>
    simp only [h.rsp_ap, or_imp, forall_and, Event.ap.injEq]
    refine and_congr_right fun _ => ⟨?_, ?_⟩
    · rintro hown _ rfl ht
      obtain ⟨hle, hthree, -⟩ := h.takes ht
      exact stack_inj hthree (hle.trans hthree) (hown j _ ⟨⟨rfl, ht⟩, rfl⟩)
    · rintro htimely i _ ⟨⟨rfl, ht⟩, rfl⟩
      rw [htimely i rfl ht]

theorem booting_run (h : Booting s) (events : List Event) : Booting (run s events) ∧
    (OwnStacks (run s events) ↔ OwnStacks s ∧ Timely s events) := by
  induction events generalizing s with
  | nil => exact ⟨h, (and_iff_left trivial).symm⟩
  | cons e events ih =>
    obtain ⟨hrun, hiff⟩ := ih (h.step e)
    refine ⟨hrun, hiff.trans ?_⟩
    rw [ownStacks_step h e, Timely, and_assoc]

theorem run_stack (s : State) (events : List Event) (i : Nat) :
    (run s events).stack i = s.stack i := by
  induction events generalizing s with
  | nil => rfl
  | cons e events ih => exact (ih _).trans (step_stack s e i)

/-- All processors have their own stacks exactly if each takes its stack before the first
processor goes on to the next. -/
theorem aps_own_stacks_iff (icr_hi : BitVec 32) (cr3_ptr stack_ptr ap_stacks : BitVec 64) (events : List Event) :
    let s := start icr_hi cr3_ptr stack_ptr ap_stacks
    (∀ j r, rsp ((run s events).ap j) = some r → ∃ i, j ≤ i ∧ i ≤ 3 ∧ r = s.stack i) ∧
      ((∀ j r, rsp ((run s events).ap j) = some r → r = s.stack j) ↔ Timely s events) := by
  intro s
  have hstart : Booting s := ⟨Nat.zero_le _, by simp [s, start], by simp [s, start], by simp [s, start],
    by simp [s, start, rsp]⟩
  obtain ⟨hrun, hiff⟩ := booting_run hstart events
  refine ⟨fun j r hr => ?_, ?_⟩
  · obtain ⟨i, hji, hi, rfl⟩ := hrun.taken j r hr
    have hpc := hrun.pc
    refine ⟨i, hji, hi.trans ?_, run_stack s events i⟩
    unfold index
    omega
  · simp only [OwnStacks, run_stack] at hiff
    rw [hiff]
    exact and_iff_right (by simp [s, start, rsp])

/-- The first processor is at the second turn when processor 1 takes its stack. -/
example :
    let s := run (start 0 0x1000 0 0x100000)
      (List.replicate 9 .bsp ++ List.replicate 6 (.ap 1) ++ List.replicate 5 .bsp ++
        List.replicate 6 (.ap 2))
    s.ap 1 = .online 0x1000 0x10C000 ∧ s.ap 2 = .online 0x1000 0x10C000 := by
  decide +kernel

end Relis.Smp
