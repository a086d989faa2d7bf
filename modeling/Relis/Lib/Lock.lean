import Mathlib.Data.List.Basic
import Mathlib.Logic.Function.Basic

/-!
# Code under a spin lock

Processes touch one object under its lock, with their steps in any order. The object is what
the finished sections have made of it, one after the other.
-/

namespace Relis.Lock

variable {ι σ γ κ ρ : Type}

/-- The code under the lock. `enter` is the place where a call starts, a step goes
on to another place or ends the section with a result, and after some results the
process makes the call again. -/
structure Section (σ γ κ ρ : Type) where
  enter : γ → κ
  step : κ → σ → (κ ⊕ ρ) × σ
  again : ρ → Bool

inductive Pc (γ κ ρ : Type)
  | out
  | exchange (c : γ)
  | pause (c : γ)
  | inside (c : γ) (k : κ)
  | unlock (c : γ) (r : ρ)
  | leave (c : γ) (r : ρ)

def Pc.holds : Pc γ κ ρ → Prop
  | .inside _ _ | .unlock _ _ => True
  | _ => False

def Pc.pending : Pc γ κ ρ → List (γ × ρ)
  | .unlock c r | .leave c r => [(c, r)]
  | _ => []

def Pc.call : Pc γ κ ρ → Option γ
  | .out => none
  | .exchange c | .pause c | .inside c _ | .unlock c _ | .leave c _ => some c

/-- `finished` are the ended sections in the order of their ends, each with its call,
and `left` those whose process has gone on. No code reads the two. -/
structure State (ι σ γ κ ρ : Type) where
  lock : BitVec 32
  obj : σ
  pc : ι → Pc γ κ ρ
  finished : List (ι × γ × ρ)
  left : List (ι × γ × ρ)

def State.start (ι γ κ ρ : Type) (lock : BitVec 32) (obj : σ) : State ι σ γ κ ρ where
  lock := lock
  obj := obj
  pc := fun _ => .out
  finished := []
  left := []

inductive Event (ι γ : Type)
  | call (i : ι) (c : γ)
  | move (i : ι)

section Machine

variable [DecidableEq ι] (S : Section σ γ κ ρ)

def goto (s : State ι σ γ κ ρ) (i : ι) (p : Pc γ κ ρ) : State ι σ γ κ ρ :=
  { s with pc := Function.update s.pc i p }

def move (s : State ι σ γ κ ρ) (i : ι) : State ι σ γ κ ρ :=
  match s.pc i with
  | .out => s
  | .exchange c =>
    -- the exchange stores 1 also when it finds the lock taken
    goto { s with lock := 1 } i (if s.lock = 0 then .inside c (S.enter c) else .pause c)
  | .pause c => if s.lock = 0 then goto s i (.exchange c) else s
  | .inside c k =>
    match S.step k s.obj with
    | (.inl k', o) => goto { s with obj := o } i (.inside c k')
    | (.inr r, o) => goto { s with obj := o, finished := s.finished ++ [(i, c, r)] } i (.unlock c r)
  | .unlock c r => goto { s with lock := 0 } i (.leave c r)
  | .leave c r => goto { s with left := s.left ++ [(i, c, r)] } i
    (if S.again r then .exchange c else .out)

/-- A process that is out of the code may call it at any time. -/
def step (s : State ι σ γ κ ρ) : Event ι γ → State ι σ γ κ ρ
  | .call i c =>
    match s.pc i with
    | .out => goto s i (.exchange c)
    | _ => s
  | .move i => move S s i

def run (s : State ι σ γ κ ρ) (events : List (Event ι γ)) : State ι σ γ κ ρ := events.foldl (step S) s

theorem run_append (s : State ι σ γ κ ρ) (l1 l2 : List (Event ι γ)) :
    run S s (l1 ++ l2) = run S (run S s l1) l2 := List.foldl_append

end Machine

/-! ## Sections one after the other -/

section Serial

variable (S : Section σ γ κ ρ)

inductive Steps : κ → σ → κ → σ → Prop
  | refl (k : κ) (o : σ) : Steps k o k o
  | tail {k k' k'' : κ} {o o' o'' : σ} :
    Steps k o k' o' → S.step k' o' = (.inl k'', o'') → Steps k o k'' o''

def Ends (c : γ) (o : σ) (r : ρ) (o' : σ) : Prop :=
  ∃ k o1, Steps S (S.enter c) o k o1 ∧ S.step k o1 = (.inr r, o')

/-- The sections of the history, each on its own, take `o0` to the object. -/
inductive Serial (o0 : σ) : List (ι × γ × ρ) → σ → Prop
  | nil : Serial o0 [] o0
  | snoc {h : List (ι × γ × ρ)} {o o' : σ} {c : γ} {r : ρ} (i : ι) :
    Serial o0 h o → Ends S c o r o' → Serial o0 (h ++ [(i, c, r)]) o'

/-- The sections of the history take `o0` to an object from which the section of `c`
has come to `k`. -/
def Midway (o0 : σ) (h : List (ι × γ × ρ)) (c : γ) (k : κ) (o : σ) : Prop :=
  ∃ o1, Serial S o0 h o1 ∧ Steps S (S.enter c) o1 k o

variable {S} in
theorem Serial.inv {o0 : σ} (Inv : List (ι × γ × ρ) → σ → Prop) (hstart : Inv [] o0)
    (hend : ∀ h o c r o' i, Inv h o → Ends S c o r o' → Inv (h ++ [(i, c, r)]) o')
    {h : List (ι × γ × ρ)} {o : σ} (hs : Serial S o0 h o) : Inv h o := by
  induction hs with
  | nil => exact hstart
  | snoc i _ he ih => exact hend _ _ _ _ _ i ih he

end Serial

/-! ## The object in every run -/

section Runs

variable {S : Section σ γ κ ρ} {o0 : σ} {s : State ι σ γ κ ρ}

def Held (S : Section σ γ κ ρ) (o0 : σ) (h : List (ι × γ × ρ)) (o : σ) : Pc γ κ ρ → Prop
  | .inside c k => Midway S o0 h c k o
  | .unlock _ _ => Serial S o0 h o
  | _ => False

inductive Owned (S : Section σ γ κ ρ) (o0 : σ) (s : State ι σ γ κ ρ) : Prop
  | free (hlock : s.lock = 0) (hnone : ∀ j, ¬ (s.pc j).holds)
    (hobj : Serial S o0 s.finished s.obj)
  | held (i : ι) (hlock : s.lock ≠ 0) (honly : ∀ j, (s.pc j).holds → j = i)
    (hobj : Held S o0 s.finished s.obj (s.pc i))

theorem Held.holds {h : List (ι × γ × ρ)} {o : σ} {p : Pc γ κ ρ} (hheld : Held S o0 h o p) :
    p.holds := by
  cases p with
  | inside c k => trivial
  | unlock c r => trivial
  | _ => exact hheld

theorem Owned.of_holds {i : ι} (h : Owned S o0 s) (hi : (s.pc i).holds) :
    s.lock ≠ 0 ∧ (∀ j, (s.pc j).holds → j = i) ∧ Held S o0 s.finished s.obj (s.pc i) := by
  rcases h with ⟨-, hnone, -⟩ | ⟨j, hlock, honly, hobj⟩
  · exact absurd hi (hnone i)
  · obtain rfl := honly i hi
    exact ⟨hlock, honly, hobj⟩

theorem owned_start (o0 : σ) : Owned S o0 (State.start ι γ κ ρ 0 o0) :=
  .free rfl (fun _ => id) .nil

theorem lock_taken : (1 : BitVec 32) ≠ 0 := by decide

variable [DecidableEq ι]

@[simp] theorem goto_pc_self (s : State ι σ γ κ ρ) (i : ι) (p : Pc γ κ ρ) : (goto s i p).pc i = p :=
  Function.update_self ..

theorem goto_pc_of_ne (s : State ι σ γ κ ρ) {i j : ι} (p : Pc γ κ ρ) (h : j ≠ i) :
    (goto s i p).pc j = s.pc j := Function.update_of_ne h ..

theorem Owned.goto {s' : State ι σ γ κ ρ} {i : ι} {p : Pc γ κ ρ} (h : Owned S o0 s)
    (hlock : s'.lock = 0 ↔ s.lock = 0) (hobj : s'.obj = s.obj) (hpc : s'.pc = s.pc)
    (hfin : s'.finished = s.finished) (hi : ¬ (s.pc i).holds) (hp : ¬ p.holds) :
    Owned S o0 (goto s' i p) := by
  have hpcs : ∀ j, ((Lock.goto s' i p).pc j).holds ↔ (s.pc j).holds := by
    intro j
    rcases eq_or_ne j i with rfl | hj
    · simp [hi, hp]
    · rw [goto_pc_of_ne _ _ hj, hpc]
  rcases h with ⟨hfree, hnone, hser⟩ | ⟨j, hlk, honly, hheld⟩
  · refine .free (hlock.mpr hfree) (fun j hj => hnone j ((hpcs j).mp hj)) ?_
    change Serial S o0 s'.finished s'.obj
    rwa [hfin, hobj]
  · refine .held j (fun h0 => hlk (hlock.mp h0)) (fun l hl => honly l ((hpcs l).mp hl)) ?_
    have hj : j ≠ i := by
      rintro rfl
      exact hi hheld.holds
    rw [goto_pc_of_ne _ _ hj, hpc]
    change Held S o0 s'.finished s'.obj _
    rwa [hfin, hobj]

theorem Owned.goto_held {s' : State ι σ γ κ ρ} {i : ι} {p : Pc γ κ ρ} (hlock : s'.lock ≠ 0)
    (hpc : ∀ j, (s'.pc j).holds → j = i) (hheld : Held S o0 s'.finished s'.obj p) :
    Owned S o0 (Lock.goto s' i p) := by
  refine .held i hlock ?_ (by rwa [goto_pc_self])
  intro j hj
  by_contra hne
  rw [goto_pc_of_ne _ _ hne] at hj
  exact hne (hpc j hj)

theorem owned_move (h : Owned S o0 s) (i : ι) : Owned S o0 (move S s i) := by
  unfold move
  split
  next => exact h
  next c hi =>
    rcases h with ⟨hfree, hnone, hser⟩ | ⟨j, hlk, honly, hheld⟩
    · rw [if_pos hfree]
      exact .goto_held lock_taken (fun j hj => absurd hj (hnone j)) ⟨s.obj, hser, .refl _ _⟩
    · rw [if_neg hlk]
      exact Owned.goto (.held j hlk honly hheld) (iff_of_false lock_taken hlk) rfl rfl rfl
        (by simp [hi, Pc.holds]) (by simp [Pc.holds])
  next c hi =>
    split
    · exact h.goto Iff.rfl rfl rfl rfl (by simp [hi, Pc.holds]) (by simp [Pc.holds])
    · exact h
  next c k hi =>
    obtain ⟨hlk, honly, hheld⟩ := h.of_holds (i := i) (by simp [hi, Pc.holds])
    rw [hi] at hheld
    obtain ⟨o1, hser, hsteps⟩ := hheld
    split
    next k' o hstep => exact .goto_held hlk honly ⟨o1, hser, hsteps.tail hstep⟩
    next r o hstep => exact .goto_held hlk honly (.snoc i hser ⟨k, s.obj, hsteps, hstep⟩)
  next c r hi =>
    obtain ⟨-, honly, hheld⟩ := h.of_holds (i := i) (by simp [hi, Pc.holds])
    rw [hi] at hheld
    refine .free rfl ?_ hheld
    intro j hj
    rcases eq_or_ne j i with rfl | hne
    · simp [Pc.holds] at hj
    · rw [goto_pc_of_ne _ _ hne] at hj
      exact hne (honly j hj)
  next c r hi =>
    refine h.goto Iff.rfl rfl rfl rfl (by simp [hi, Pc.holds]) ?_
    split <;> simp [Pc.holds]

theorem owned_step (h : Owned S o0 s) (e : Event ι γ) : Owned S o0 (step S s e) := by
  cases e with
  | move i => exact owned_move h i
  | call i c =>
    unfold step
    dsimp only
    split
    next hi => exact h.goto Iff.rfl rfl rfl rfl (by simp [hi, Pc.holds]) (by simp [Pc.holds])
    next => exact h

theorem owned_run (events : List (Event ι γ)) (h : Owned S o0 s) : Owned S o0 (run S s events) := by
  induction events generalizing s with
  | nil => exact h
  | cons e events ih => exact ih (owned_step h e)

/-! ## Results -/

def resultsOf (i : ι) (h : List (ι × γ × ρ)) : List (γ × ρ) :=
  (h.filter fun e => e.1 = i).map Prod.snd

@[simp] theorem resultsOf_snoc (i j : ι) (h : List (ι × γ × ρ)) (r : γ × ρ) :
    resultsOf i (h ++ [(j, r)]) = resultsOf i h ++ if j = i then [r] else [] := by
  unfold resultsOf
  rw [List.filter_append, List.map_append]
  by_cases hj : j = i <;> simp [hj]

/-- Every process leaves with the results of its own sections, in order. -/
def Returned (s : State ι σ γ κ ρ) : Prop :=
  ∀ i, resultsOf i s.finished = resultsOf i s.left ++ (s.pc i).pending

theorem Returned.goto {i : ι} {p : Pc γ κ ρ} {s' : State ι σ γ κ ρ} (h : Returned s)
    (hpc : s'.pc = s.pc) (hself : resultsOf i s'.finished = resultsOf i s'.left ++ p.pending)
    (hother : ∀ j ≠ i, resultsOf j s'.finished = resultsOf j s.finished ∧
      resultsOf j s'.left = resultsOf j s.left) : Returned (Lock.goto s' i p) := by
  intro j
  change resultsOf j s'.finished = resultsOf j s'.left ++ _
  rcases eq_or_ne j i with rfl | hj
  · rwa [goto_pc_self]
  · rw [goto_pc_of_ne _ _ hj, hpc, (hother j hj).1, (hother j hj).2, h j]

theorem returned_move (h : Returned s) (i : ι) : Returned (move S s i) := by
  have hi := h i
  unfold move
  split
  next => exact h
  next c hpc =>
    rw [hpc] at hi
    refine h.goto rfl ?_ (fun j _ => ⟨rfl, rfl⟩)
    split <;> exact hi
  next c hpc =>
    rw [hpc] at hi
    split
    · exact h.goto rfl hi (fun j _ => ⟨rfl, rfl⟩)
    · exact h
  next c k hpc =>
    rw [hpc] at hi
    split
    next => exact h.goto rfl hi (fun j _ => ⟨rfl, rfl⟩)
    next r o hstep =>
      refine h.goto rfl ?_ (fun j hj => ⟨by simp [hj.symm], rfl⟩)
      simp only [resultsOf_snoc, if_true, hi, Pc.pending, List.append_nil]
  next c r hpc =>
    rw [hpc] at hi
    exact h.goto rfl hi (fun j _ => ⟨rfl, rfl⟩)
  next c r hpc =>
    rw [hpc] at hi
    refine h.goto rfl ?_ (fun j hj => ⟨rfl, by simp [hj.symm]⟩)
    split <;> simpa [Pc.pending] using hi

theorem returned_run (events : List (Event ι γ)) (h : Returned s) : Returned (run S s events) := by
  induction events generalizing s with
  | nil => exact h
  | cons e events ih =>
    apply ih
    cases e with
    | move i => exact returned_move h i
    | call i c =>
      unfold step
      dsimp only
      split
      next hpc =>
        have hi := h i
        rw [hpc] at hi
        exact h.goto rfl hi (fun j _ => ⟨rfl, rfl⟩)
      next => exact h

theorem returned_start (lock : BitVec 32) (o0 : σ) : Returned (State.start ι γ κ ρ lock o0) :=
  fun _ => rfl

/-! ## Calls -/

structure Asked (asked : ι → γ → Prop) (s : State ι σ γ κ ρ) : Prop where
  now : ∀ i c, (s.pc i).call = some c → asked i c
  done : ∀ e ∈ s.finished, asked e.1 e.2.1

variable {asked : ι → γ → Prop}

theorem Asked.goto {i : ι} {p : Pc γ κ ρ} {s' : State ι σ γ κ ρ} (h : Asked asked s)
    (hpc : s'.pc = s.pc) (hp : ∀ c, p.call = some c → asked i c)
    (hdone : ∀ e ∈ s'.finished, asked e.1 e.2.1) : Asked asked (Lock.goto s' i p) := by
  refine ⟨?_, hdone⟩
  intro j c hc
  rcases eq_or_ne j i with rfl | hj
  · rw [goto_pc_self] at hc
    exact hp c hc
  · rw [goto_pc_of_ne _ _ hj, hpc] at hc
    exact h.now j c hc

theorem asked_move (h : Asked asked s) (i : ι) : Asked asked (move S s i) := by
  have hnow := h.now i
  unfold move
  split
  next => exact h
  next c hpc =>
    rw [hpc] at hnow
    refine h.goto rfl ?_ h.done
    split <;> exact hnow
  next c hpc =>
    rw [hpc] at hnow
    split
    · exact h.goto rfl hnow h.done
    · exact h
  next c k hpc =>
    rw [hpc] at hnow
    split
    next => exact h.goto rfl hnow h.done
    next r o hstep =>
      refine h.goto rfl hnow ?_
      intro e he
      rcases List.mem_append.mp he with he | he
      · exact h.done e he
      · rw [List.mem_singleton] at he
        subst he
        exact hnow c rfl
  next c r hpc =>
    rw [hpc] at hnow
    exact h.goto rfl hnow h.done
  next c r hpc =>
    rw [hpc] at hnow
    refine h.goto rfl ?_ h.done
    split
    · exact hnow
    · intro c hc
      cases hc

theorem asked_run (events : List (Event ι γ)) (hevents : ∀ i c, .call i c ∈ events → asked i c)
    (h : Asked asked s) : Asked asked (run S s events) := by
  induction events generalizing s with
  | nil => exact h
  | cons e events ih =>
    apply ih (fun i c hc => hevents i c (List.mem_cons_of_mem _ hc))
    cases e with
    | move i => exact asked_move h i
    | call i c =>
      unfold step
      dsimp only
      split
      next =>
        refine h.goto rfl ?_ h.done
        rintro c' ⟨⟩
        exact hevents i c List.mem_cons_self
      next => exact h

theorem call_of_finished {lock : BitVec 32} {events : List (Event ι γ)} {e : ι × γ × ρ}
    (he : e ∈ (run S (State.start ι γ κ ρ lock o0) events).finished) : .call e.1 e.2.1 ∈ events := by
  have hstart : Asked (fun i c => Event.call i c ∈ events) (State.start ι γ κ ρ lock o0) := by
    constructor
    · intro i c hc
      cases hc
    · intro e he
      cases he
  exact (asked_run events (fun _ _ hc => hc) hstart).done e he

/-! ## A process on its own -/

theorem run_cons (s : State ι σ γ κ ρ) (e : Event ι γ) (events : List (Event ι γ)) :
    run S s (e :: events) = run S (step S s e) events := rfl

theorem run_steps {i : ι} {c : γ} {k k' : κ} {o o' : σ} (h : Steps S k o k' o') (s : State ι σ γ κ ρ)
    (hpc : s.pc i = .inside c k) (hobj : s.obj = o) :
    ∃ events, run S s events = goto { s with obj := o' } i (.inside c k') := by
  induction h with
  | refl =>
    subst hobj
    refine ⟨[], ?_⟩
    unfold goto
    rw [← hpc, Function.update_eq_self]
    rfl
  | tail _ hstep ih =>
    obtain ⟨events, hrun⟩ := ih hobj
    refine ⟨events ++ [.move i], ?_⟩
    rw [run_append, hrun]
    change move S _ i = _
    unfold move
    simp only [goto_pc_self]
    unfold goto
    simp only [hstep, Function.update_idem]

theorem run_alone {i : ι} {c : γ} {r : ρ} {o' : σ} (hlock : s.lock = 0) (hpc : s.pc i = .out)
    (hend : Ends S c s.obj r o') (hagain : S.again r = false) :
    ∃ events, run S s events =
      { s with obj := o', finished := s.finished ++ [(i, c, r)], left := s.left ++ [(i, c, r)] } := by
  obtain ⟨k, o1, hsteps, hlast⟩ := hend
  have hcall : step S s (.call i c) = goto s i (.exchange c) := by
    simp only [step, hpc]
  have henter : move S (goto s i (.exchange c)) i =
      goto { s with lock := 1 } i (.inside c (S.enter c)) := by
    simp [move, goto, hlock]
  obtain ⟨events, hrun⟩ := run_steps (i := i) hsteps _
    (goto_pc_self { s with lock := 1 } i (.inside c (S.enter c))) rfl
  refine ⟨.call i c :: .move i :: (events ++ [.move i, .move i, .move i]), ?_⟩
  rw [run_cons, hcall, run_cons, step, henter, run_append, hrun]
  -- the last step of the section, the store to the lock and the return
  have hback : Function.update s.pc i .out = s.pc := by rw [← hpc, Function.update_eq_self]
  simp [run, step, move, goto, hlast, hagain, hback, hlock]

end Runs

end Relis.Lock
