import Mathlib.Data.List.Basic
import Relis.Code.Task

/-!
# What the scheduler is for

Real-time tasks form a stack of which the top runs. Fair tasks form a queue that turns by
one place at each choice. No event takes a task out.
-/

open Relis.Code

namespace Relis.Sched

structure Queues where
  tasks : List Nat
  cfs : List Nat
  rt : List Nat
  current : Nat

namespace Queues

def arrive (a : Queues) (p : Nat) : SchedClass → Queues
  | .rt_sched_class => { a with tasks := p :: a.tasks, rt := p :: a.rt }
  | .fair_sched_class => { a with tasks := p :: a.tasks, cfs := a.cfs ++ [p] }
  | .idle_sched_class => { a with tasks := p :: a.tasks }

def select (a : Queues) : Queues :=
  match a.rt, a.cfs with
  | p :: _, _ => { a with current := p }
  | [], p :: q => { a with cfs := q ++ [p], current := p }
  | [], [] => a

end Queues

inductive Step : Queues → Event → Queues → Prop
  | arrive {a : Queues} {p : Nat} (c : SchedClass) (hp : p ∉ a.tasks) :
    Step a (.arrive c p) (a.arrive p c)
  | zombie (a : Queues) : Step a (.zombie a.current) a
  | select (a : Queues) : Step a (.select a.select.current) a.select

inductive Steps : Queues → List Event → Queues → Prop
  | nil (a : Queues) : Steps a [] a
  | cons {a b c : Queues} {e : Event} {es : List Event} : Step a e b → Steps b es c →
    Steps a (e :: es) c

variable {a b c : Queues} {p : Nat} {es es' : List Event} {e : Event}

theorem Steps.append (h1 : Steps a es b) (h2 : Steps b es' c) : Steps a (es ++ es') c := by
  induction h1 with
  | nil => exact h2
  | cons hstep _ ih => exact .cons hstep (ih h2)

theorem Steps.single (h : Step a e b) : Steps a [e] b := .cons h (.nil b)

@[simp] theorem arrive_tasks (c : SchedClass) : (a.arrive p c).tasks = p :: a.tasks := by
  cases c <;> rfl

@[simp] theorem arrive_current (c : SchedClass) : (a.arrive p c).current = a.current := by
  cases c <;> rfl

theorem mem_arrive_cfs {q : Nat} (c : SchedClass) :
    q ∈ (a.arrive p c).cfs ↔ q ∈ a.cfs ∨ q = p ∧ c = .fair_sched_class := by
  cases c <;> simp [Queues.arrive]

theorem mem_arrive_rt {q : Nat} (c : SchedClass) :
    q ∈ (a.arrive p c).rt ↔ q ∈ a.rt ∨ q = p ∧ c = .rt_sched_class := by
  cases c <;> simp [Queues.arrive, or_comm]

@[simp] theorem select_tasks : a.select.tasks = a.tasks := by
  unfold Queues.select
  split <;> rfl

@[simp] theorem select_rt : a.select.rt = a.rt := by
  unfold Queues.select
  split <;> rfl

theorem select_cfs_perm : a.select.cfs.Perm a.cfs := by
  obtain ⟨tasks, cfs, rt, current⟩ := a
  cases rt with
  | cons q r => exact List.Perm.refl _
  | nil =>
    cases cfs with
    | nil => exact List.Perm.refl _
    | cons q r => exact List.perm_append_singleton q r

theorem select_current :
    a.select.current ∈ a.rt ∨ a.select.current ∈ a.cfs ∨ a.select.current = a.current := by
  obtain ⟨tasks, cfs, rt, current⟩ := a
  cases rt with
  | cons q r => exact .inl List.mem_cons_self
  | nil =>
    cases cfs with
    | nil => exact .inr (.inr rfl)
    | cons q r => exact .inr (.inl List.mem_cons_self)

/-! ## Tasks that are never chosen again -/

def Buried (a : Queues) (p : Nat) : Prop :=
  p ∈ a.tasks ∧ if a.rt = [] then a.cfs ≠ [] ∧ p ∉ a.cfs else a.rt.head? ≠ some p

theorem Buried.not_selected (h : Buried a p) : a.select.current ≠ p := by
  obtain ⟨-, h⟩ := h
  obtain ⟨tasks, cfs, rt, current⟩ := a
  cases rt with
  | cons q r => simpa [Queues.select] using h
  | nil =>
    cases cfs with
    | nil => simp at h
    | cons q r =>
      simp only [Queues.select]
      rintro rfl
      simp at h

theorem Buried.step (h : Buried a p) (hstep : Step a e b) : Buried b p := by
  obtain ⟨hmem, h⟩ := h
  cases hstep with
  | zombie => exact ⟨hmem, h⟩
  | @arrive q c hq =>
    have hne : q ≠ p := by
      rintro rfl
      exact hq hmem
    refine ⟨by simp [hmem], ?_⟩
    -- A new real-time task goes in front, a new fair one behind.
    cases c with
    | rt_sched_class => simpa [Queues.arrive] using hne
    | fair_sched_class =>
      simp only [Queues.arrive]
      split at h
      · rename_i hrt
        simp [hrt, h.2, hne.symm]
      · rename_i hrt
        simpa [hrt] using h
    | idle_sched_class => exact h
  | select =>
    refine ⟨by simpa using hmem, ?_⟩
    rw [select_rt]
    split at h
    · rename_i hrt
      rw [if_pos hrt]
      obtain ⟨hne, hnot⟩ := h
      cases hcfs : a.cfs with
      | nil => exact absurd hcfs hne
      | cons q r =>
        rw [hcfs] at hnot
        simp only [Queues.select, hrt, hcfs]
        simpa [and_comm] using hnot
    · rename_i hrt
      rwa [if_neg hrt]

theorem Buried.never_selected (h : Buried a p) (hsteps : Steps a es b) : .select p ∉ es := by
  induction hsteps with
  | nil => simp
  | cons hstep _ ih =>
    rw [List.mem_cons, not_or]
    refine ⟨?_, ih (h.step hstep)⟩
    intro he
    cases hstep with
    | select =>
      simp only [Event.select.injEq] at he
      exact h.not_selected he.symm
    | arrive c hp => cases he
    | zombie => cases he

theorem select_iterate (hrt : a.rt = []) {i : Nat} (hi : a.cfs[i]? = some p) :
    (Queues.select^[i + 1] a).current = p := by
  induction i generalizing a with
  | zero =>
    obtain ⟨tasks, cfs, rt, current⟩ := a
    cases cfs with
    | nil => cases hi
    | cons q r =>
      cases hrt
      cases hi
      rfl
  | succ i ih =>
    obtain ⟨tasks, cfs, rt, current⟩ := a
    cases cfs with
    | nil => cases hi
    | cons q r =>
      cases hrt
      rw [Function.iterate_succ_apply]
      refine ih rfl ?_
      obtain ⟨hlt, -⟩ := List.getElem?_eq_some_iff.mp (show r[i]? = some p from hi)
      exact (List.getElem?_append_left hlt).trans hi

theorem chosen_or_waits (hmem : a.current ∈ a.tasks) (h : ¬ Buried a a.current) :
    a.select.current = a.current ∨ a.rt = [] ∧ a.current ∈ a.cfs := by
  by_cases hnow : a.select.current = a.current
  · exact .inl hnow
  have hrt : a.rt = [] := by
    by_contra hne
    refine h ⟨hmem, ?_⟩
    rw [if_neg hne]
    intro hhead
    obtain ⟨r, hr⟩ := List.head?_eq_some_iff.mp hhead
    exact hnow (by simp only [Queues.select, hr])
  refine .inr ⟨hrt, ?_⟩
  by_contra hnot
  refine h ⟨hmem, ?_⟩
  rw [if_pos hrt]
  refine ⟨?_, hnot⟩
  intro hcfs
  exact hnow (by simp only [Queues.select, hrt, hcfs])

theorem select_returns (hmem : a.current ∈ a.tasks) (h : ¬ Buried a a.current) :
    ∃ n, (Queues.select^[n] a.select).current = a.current := by
  rcases chosen_or_waits hmem h with hnow | ⟨hrt, hcfs⟩
  · exact ⟨0, hnow⟩
  · obtain ⟨i, hi⟩ := List.mem_iff_getElem?.mp hcfs
    refine ⟨i, ?_⟩
    have hturn := select_iterate hrt hi
    rwa [Function.iterate_succ_apply] at hturn

/-! ## Turns of the fair queue -/

def selections (es : List Event) : List Nat :=
  es.filterMap fun e => match e with
    | .select p => some p
    | _ => none

def arrivals (es : List Event) : List Nat :=
  es.filterMap fun e => match e with
    | .arrive .fair_sched_class p => some p
    | _ => none

def NoRt (es : List Event) : Prop := ∀ p, .arrive .rt_sched_class p ∉ es

theorem steps_rt (hsteps : Steps a es b) (hrt : a.rt = []) (hno : NoRt es) : b.rt = [] := by
  induction hsteps with
  | nil => exact hrt
  | @cons a b c e es hstep _ ih =>
    refine ih ?_ fun p hp => hno p (List.mem_cons_of_mem _ hp)
    cases hstep with
    | @arrive q c hq =>
      cases c with
      | rt_sched_class => exact absurd List.mem_cons_self (hno q)
      | fair_sched_class => exact hrt
      | idle_sched_class => exact hrt
    | zombie => exact hrt
    | select => rw [select_rt, hrt]

theorem steps_prefix (hsteps : Steps a es b) (hrt : a.rt = []) (hno : NoRt es) :
    a.cfs <+: selections es ++ b.cfs := by
  induction hsteps with
  | nil => exact List.prefix_rfl
  | @cons a b c e es hstep hsteps ih =>
    have hno' : NoRt es := fun p hp => hno p (List.mem_cons_of_mem _ hp)
    have hrt' : b.rt = [] :=
      steps_rt (.single hstep) hrt fun p hp => hno p (by simp at hp; simp [hp])
    have hrest := ih hrt' hno'
    cases hstep with
    | @arrive q c hq =>
      refine List.IsPrefix.trans ?_ hrest
      cases c with
      | rt_sched_class => exact List.prefix_rfl
      | fair_sched_class => exact List.prefix_append _ _
      | idle_sched_class => exact List.prefix_rfl
    | zombie => exact hrest
    | select =>
      cases hcfs : a.cfs with
      | nil => exact List.nil_prefix
      | cons p q =>
        have hturn : a.select.cfs = q ++ [p] ∧ a.select.current = p := by
          simp only [Queues.select, hrt, hcfs, and_self]
        rw [hturn.1] at hrest
        simp only [selections, List.filterMap_cons, hturn.2, List.cons_append]
        rw [List.cons_prefix_cons]
        exact ⟨rfl, (List.prefix_append q [p]).trans hrest⟩

theorem steps_perm (hsteps : Steps a es b) (hrt : a.rt = []) (hno : NoRt es) :
    b.cfs.Perm (a.cfs ++ arrivals es) := by
  induction hsteps with
  | nil => simp [arrivals]
  | @cons a b c e es hstep hsteps ih =>
    have hno' : NoRt es := fun p hp => hno p (List.mem_cons_of_mem _ hp)
    have hrt' : b.rt = [] :=
      steps_rt (.single hstep) hrt fun p hp => hno p (by simp at hp; simp [hp])
    refine (ih hrt' hno').trans ?_
    cases hstep with
    | @arrive q c hq =>
      cases c with
      | rt_sched_class => exact absurd List.mem_cons_self (hno q)
      | fair_sched_class => simp [arrivals, Queues.arrive]
      | idle_sched_class => simp [arrivals, Queues.arrive]
    | zombie => simp [arrivals]
    | select =>
      refine List.Perm.append_right _ ?_
      cases hcfs : a.cfs with
      | nil => simp only [Queues.select, hrt, hcfs, List.Perm.refl]
      | cons p q =>
        simp only [Queues.select, hrt, hcfs]
        exact List.perm_append_singleton p q

theorem selected_in_turn (hsteps : Steps a es b) (hrt : a.rt = []) (hno : NoRt es)
    (hnodup : a.cfs.Nodup) {i : Nat} (hi : a.cfs[i]? = some p) :
    p ∉ (selections es).take i ∧ (i < (selections es).length → (selections es)[i]? = some p) := by
  obtain ⟨rest, hrest⟩ := steps_prefix hsteps hrt hno
  have hget : ∀ j, j < a.cfs.length → (selections es ++ b.cfs)[j]? = a.cfs[j]? := by
    intro j hj
    rw [← hrest, List.getElem?_append_left hj]
  obtain ⟨hlen, -⟩ := List.getElem?_eq_some_iff.mp hi
  constructor
  · intro hmem
    obtain ⟨j, hj, hjp⟩ := List.mem_take_iff_getElem.mp hmem
    have hj' := hget j (by omega)
    rw [List.getElem?_append_left (by omega), List.getElem?_eq_getElem (by omega), hjp] at hj'
    have hij := (List.getElem?_inj (by omega) hnodup).mp (hj'.symm.trans hi.symm)
    omega
  · intro hsel
    rw [← hi, ← hget i hlen, List.getElem?_append_left hsel]

/-- From one choice of `p` to the next, the others of the queue have their turns in order. -/
theorem round (hsteps : Steps a (.select p :: es) b) (hrt : a.rt = []) (hno : NoRt es)
    {q mid : List Nat} (hnodup : a.cfs.Nodup) (hcfs : a.cfs = p :: q)
    (hsel : selections es = mid ++ [p]) (hmid : p ∉ mid) : mid = q := by
  cases hsteps with
  | @cons _ a' _ _ _ hstep hsteps =>
    have hb : a'.cfs = q ++ [p] ∧ a'.rt = [] := by
      generalize he : Event.select p = e at hstep
      cases hstep with
      | arrive c hp => cases he
      | zombie => cases he
      | select => simp only [Queues.select, hrt, hcfs, and_self]
    obtain ⟨rest, hrest⟩ := steps_prefix hsteps hb.2 hno
    rw [hb.1, hsel, List.append_assoc, List.append_assoc] at hrest
    -- `p` is at the end of `q` and at the end of `mid`, and nowhere before.
    have hq : p ∉ q := by
      rw [hcfs] at hnodup
      exact (List.nodup_cons.mp hnodup).1
    have hlen : q.length = mid.length := by
      have hidx := congrArg (List.idxOf p) hrest
      rw [List.idxOf_append_of_notMem hq, List.idxOf_append_of_notMem hmid] at hidx
      simpa using hidx
    exact (List.append_inj_left hrest hlen).symm

end Relis.Sched
