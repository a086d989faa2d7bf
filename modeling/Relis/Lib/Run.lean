import Mathlib.Data.List.Basic

/-!
# Loops and runs that can stop

A step takes a state and an operation, and gives the next state or the reason why the
machine stops.
-/

namespace Relis.Run

variable {ε σ ω α β : Type} {ops : List ω}

theorem bind_ok {x : Except ε α} {f : α → Except ε β} {b : β} :
    (x >>= f) = .ok b ↔ ∃ a, x = .ok a ∧ f a = .ok b := by
  cases x with
  | error e => simp [bind, Except.bind]
  | ok a => simp [bind, Except.bind]

theorem bind_error {x : Except ε α} {f : α → Except ε β} {e : ε} :
    (x >>= f) = .error e ↔ x = .error e ∨ ∃ a, x = .ok a ∧ f a = .error e := by
  cases x with
  | error e => simp [bind, Except.bind]
  | ok a => simp [bind, Except.bind]

theorem map_snd_ok {x : Except ε (α × β)} {b : β} : Prod.snd <$> x = .ok b ↔ ∃ a, x = .ok (a, b) := by
  cases x with
  | error e => simp
  | ok r =>
    obtain ⟨a, b'⟩ := r
    simp

theorem exists_of_any {x : Except ε α} {test : α → Bool} (h : x.toOption.any test = true) :
    ∃ a, x = .ok a ∧ test a = true := by
  cases x with
  | error e => cases h
  | ok a => exact ⟨a, rfl, h⟩

/-! ## Runs -/

def run (step : σ → ω → Except ε σ) (s : σ) (ops : List ω) : Except ε σ := ops.foldlM step s

variable {step : σ → ω → Except ε σ}

theorem run_cons (s : σ) (op : ω) (ops : List ω) :
    run step s (op :: ops) = step s op >>= fun s' => run step s' ops := rfl

theorem run_inv (Inv : σ → Prop) {s s' : σ}
    (hstep : ∀ op ∈ ops, ∀ s s', Inv s → step s op = .ok s' → Inv s')
    (hs : Inv s) (hrun : run step s ops = .ok s') : Inv s' := by
  induction ops generalizing s with
  | nil =>
    cases hrun
    exact hs
  | cons op ops ih =>
    rw [run_cons, bind_ok] at hrun
    obtain ⟨s1, h1, hrun⟩ := hrun
    exact ih (fun o ho => hstep o (List.mem_cons_of_mem _ ho))
      (hstep op List.mem_cons_self s s1 hs h1) hrun

theorem run_ok_iff {s : σ} :
    (∃ s', run step s ops = .ok s') ↔ ∀ before op after s', ops = before ++ op :: after →
      run step s before = .ok s' → ∃ s'', step s' op = .ok s'' := by
  induction ops generalizing s with
  | nil =>
    refine ⟨fun _ before op after s' hops => ?_, fun _ => ⟨s, rfl⟩⟩
    cases List.append_ne_nil_of_right_ne_nil before (List.cons_ne_nil op after) hops.symm
  | cons op ops ih =>
    constructor
    · rintro ⟨s', hrun⟩ before op' after s'' hops hbefore
      obtain ⟨s1, h1, hrun⟩ := bind_ok.mp hrun
      cases before with
      | nil =>
        cases hops
        cases hbefore
        exact ⟨s1, h1⟩
      | cons b before =>
        cases hops
        obtain ⟨s2, h2, hbefore⟩ := bind_ok.mp hbefore
        cases h1.symm.trans h2
        exact ih.mp ⟨s', hrun⟩ before op' after s'' rfl hbefore
    · intro hall
      obtain ⟨s1, h1⟩ := hall [] op ops s rfl rfl
      obtain ⟨s', hrun⟩ := ih.mpr fun before op' after s' hops hbefore =>
        hall (op :: before) op' after s' (by rw [hops]; rfl) (bind_ok.mpr ⟨s1, h1, hbefore⟩)
      exact ⟨s', bind_ok.mpr ⟨s1, h1, hrun⟩⟩

theorem run_append (s : σ) (ops ops' : List ω) :
    run step s (ops ++ ops') = run step s ops >>= fun s' => run step s' ops' := List.foldlM_append

theorem run_map (f : α → ω) (l : List α) (s : σ) :
    run step s (l.map f) = run (fun s a => step s (f a)) s l :=
  List.foldlM_map

theorem run_flatMap (f : α → List ω) (l : List α) (s : σ) :
    run step s (l.flatMap f) = run (fun s a => run step s (f a)) s l := by
  induction l generalizing s with
  | nil => rfl
  | cons a l ih => simp only [List.flatMap_cons, run_append, run_cons, ih]

theorem run_error (P : ε → Prop) {s : σ} {e : ε}
    (hstep : ∀ op ∈ ops, ∀ s e, step s op = .error e → P e) (hrun : run step s ops = .error e) :
    P e := by
  induction ops generalizing s with
  | nil => cases hrun
  | cons op ops ih =>
    rw [run_cons, bind_error] at hrun
    obtain h | ⟨s1, -, hrun⟩ := hrun
    · exact hstep op List.mem_cons_self s e h
    · exact ih (fun o ho => hstep o (List.mem_cons_of_mem _ ho)) hrun

theorem run_related {τ : Type} (R : σ → τ → Prop) {step' : τ → ω → Except ε τ} {s : σ} {t : τ}
    (hstep : ∀ op ∈ ops, ∀ s t, R s t → (∃ e, step s op = .error e ∧ step' t op = .error e) ∨
      ∃ s' t', step s op = .ok s' ∧ step' t op = .ok t' ∧ R s' t') (h : R s t) :
    (∃ e, run step s ops = .error e ∧ run step' t ops = .error e) ∨
      ∃ s' t', run step s ops = .ok s' ∧ run step' t ops = .ok t' ∧ R s' t' := by
  induction ops generalizing s t with
  | nil => exact .inr ⟨s, t, rfl, rfl, h⟩
  | cons op ops ih =>
    rw [run_cons, run_cons]
    obtain ⟨e, hs, ht⟩ | ⟨s', t', hs, ht, h'⟩ := hstep op List.mem_cons_self s t h
    · rw [hs, ht]
      exact .inl ⟨e, rfl, rfl⟩
    · rw [hs, ht]
      exact ih (fun op hop => hstep op (List.mem_cons_of_mem _ hop)) h'

/-- The step, as long as its operation meets `C` in the state before it. -/
def guarded (C : σ → ω → Prop) [∀ s op, Decidable (C s op)] (e : ε) (step : σ → ω → Except ε σ)
    (s : σ) (op : ω) : Except ε σ :=
  if C s op then step s op else .error e

theorem guarded_ok {C : σ → ω → Prop} [∀ s op, Decidable (C s op)] {e : ε} {s s' : σ} {op : ω} :
    guarded C e step s op = .ok s' ↔ C s op ∧ step s op = .ok s' := by
  unfold guarded
  split_ifs with h
  · simp [h]
  · simp [h]

theorem run_of_guarded {C : σ → ω → Prop} [∀ s op, Decidable (C s op)] {e : ε} {s s' : σ}
    (h : run (guarded C e step) s ops = .ok s') : run step s ops = .ok s' := by
  induction ops generalizing s with
  | nil => exact h
  | cons op ops ih =>
    rw [run_cons, bind_ok] at h ⊢
    obtain ⟨s1, hstep, h⟩ := h
    exact ⟨s1, (guarded_ok.mp hstep).2, ih h⟩

/-! ## The steps of a run -/

/-- Each step of the run with the states before and after it. -/
def trace (step : σ → ω → Except ε σ) (s : σ) : List ω → List (σ × ω × σ)
  | [] => []
  | op :: ops =>
    match step s op with
    | .ok s' => (s, op, s') :: trace step s' ops
    | .error _ => []

theorem trace_cons {s s' : σ} {op : ω} (h : step s op = .ok s') (ops : List ω) :
    trace step s (op :: ops) = (s, op, s') :: trace step s' ops := by
  rw [trace, h]

theorem trace_inv (Inv : σ → Prop) (hstep : ∀ s op s', Inv s → step s op = .ok s' → Inv s')
    {s : σ} (hs : Inv s) : ∀ x ∈ trace step s ops, Inv x.1 ∧ step x.1 x.2.1 = .ok x.2.2 := by
  induction ops generalizing s with
  | nil => simp [trace]
  | cons op ops ih =>
    cases h : step s op with
    | error e => simp [trace, h]
    | ok s' =>
      rw [trace_cons h, List.forall_mem_cons]
      exact ⟨⟨hs, h⟩, ih (hstep s op s' hs h)⟩

theorem trace_met (Inv : σ → Prop) {C : σ → ω → Prop} {P : σ → ω → σ → Prop}
    (hstep : ∀ s op s', Inv s → C s op → step s op = .ok s' → P s op s' ∧ Inv s') {s : σ} (hs : Inv s)
    (hC : ∀ x ∈ trace step s ops, C x.1 x.2.1) : ∀ x ∈ trace step s ops, P x.1 x.2.1 x.2.2 := by
  induction ops generalizing s with
  | nil => simp [trace]
  | cons op ops ih =>
    cases h : step s op with
    | error e => simp [trace, h]
    | ok s' =>
      rw [trace_cons h, List.forall_mem_cons] at hC ⊢
      obtain ⟨hp, hs'⟩ := hstep s op s' hs hC.1 h
      exact ⟨hp, ih hs' hC.2⟩

/-- A run keeps `P` just when each of its steps meets `C`, if a step from a state with `P` does so
just then. -/
theorem trace_iff (Inv P : σ → Prop) {C : σ → ω → Prop}
    (hstep : ∀ s op s', Inv s → P s → step s op = .ok s' → Inv s' ∧ (P s' ↔ C s op)) {s : σ}
    (hs : Inv s) (hP : P s) :
    (∀ x ∈ trace step s ops, P x.2.2) ↔ ∀ x ∈ trace step s ops, C x.1 x.2.1 := by
  induction ops generalizing s with
  | nil => simp [trace]
  | cons op ops ih =>
    cases h : step s op with
    | error e => simp [trace, h]
    | ok s' =>
      obtain ⟨hs', hiff⟩ := hstep s op s' hs hP h
      rw [trace_cons h, List.forall_mem_cons, List.forall_mem_cons, ← hiff]
      exact and_congr_right fun hP' => ih hs' hP'

/-! ## Runs that give answers -/

def answers {τ : Type} (step : ω → τ → α × τ) : List ω → τ → List α × τ
  | [], s => ([], s)
  | op :: ops, s =>
    let r := step op s
    let rest := answers step ops r.2
    (r.1 :: rest.1, rest.2)

theorem answers_view {τ : Type} (view : σ → τ) {step : ω → σ → α × σ} {spec : ω → τ → α × τ}
    (h : ∀ op s, Prod.map id view (step op s) = spec op (view s)) (ops : List ω) (s : σ) :
    Prod.map id view (answers step ops s) = answers spec ops (view s) := by
  induction ops generalizing s with
  | nil => rfl
  | cons op ops ih =>
    rw [answers, answers, ← h op s, Prod.map_snd, ← ih]
    rfl

/-! ## Loops over a range of indices -/

/-- `for (i = lo; i < lo + n; i++) body(i)`. -/
def loop (lo n : Nat) (body : Nat → σ → Except ε σ) (s : σ) : Except ε σ :=
  (List.range' lo n).foldlM (fun s i => body i s) s

@[simp] theorem loop_zero (lo : Nat) (body : Nat → σ → Except ε σ) (s : σ) :
    loop lo 0 body s = .ok s := rfl

theorem loop_succ (lo n : Nat) (body : Nat → σ → Except ε σ) (s : σ) :
    loop lo (n + 1) body s = body lo s >>= loop (lo + 1) n body := rfl

theorem loop_congr {f g : Nat → σ → Except ε σ} {lo n : Nat}
    (h : ∀ i, lo ≤ i → i < lo + n → f i = g i) (s : σ) : loop lo n f s = loop lo n g s := by
  induction n generalizing lo s with
  | zero => rw [loop_zero, loop_zero]
  | succ n ih =>
    rw [loop_succ, loop_succ, h lo (by omega) (by omega)]
    exact congrArg (Bind.bind _) (funext fun s => ih (fun i h1 h2 => h i (by omega) (by omega)) s)

/-- The loop rule: `Inv i` holds when the loop is about to run index `i`. -/
theorem loop_inv (Inv : Nat → σ → Prop) {body : Nat → σ → Except ε σ} {lo n : Nat} {s s' : σ}
    (hbody : ∀ i s s', lo ≤ i → i < lo + n → Inv i s → body i s = .ok s' → Inv (i + 1) s')
    (hs : Inv lo s) (hloop : loop lo n body s = .ok s') : Inv (lo + n) s' := by
  induction n generalizing lo s with
  | zero =>
    cases hloop
    exact hs
  | succ n ih =>
    rw [loop_succ, bind_ok] at hloop
    obtain ⟨s1, h1, hloop⟩ := hloop
    have hnext := @ih (lo + 1) s1 (fun i s s' hlo hhi => hbody i s s' (by omega) (by omega))
      (hbody lo s s1 (Nat.le_refl _) (by omega) hs h1) hloop
    rwa [show lo + 1 + n = lo + (n + 1) by omega] at hnext

theorem loop_total (Inv : Nat → σ → Prop) (body : Nat → σ → Except ε σ) (lo n : Nat) (s : σ)
    (hbody : ∀ i s, lo ≤ i → i < lo + n → Inv i s → ∃ s', body i s = .ok s' ∧ Inv (i + 1) s')
    (hs : Inv lo s) : ∃ s', loop lo n body s = .ok s' ∧ Inv (lo + n) s' := by
  induction n generalizing lo s with
  | zero => exact ⟨s, rfl, hs⟩
  | succ n ih =>
    obtain ⟨s1, h1, hinv⟩ := hbody lo s (Nat.le_refl _) (by omega) hs
    obtain ⟨s2, h2, hend⟩ := @ih (lo + 1) s1 (fun i s hlo hhi => hbody i s (by omega) (by omega)) hinv
    refine ⟨s2, ?_, by rwa [show lo + (n + 1) = lo + 1 + n by omega]⟩
    rw [loop_succ, bind_ok]
    exact ⟨s1, h1, h2⟩

theorem loop_error {body : Nat → σ → Except ε σ} {lo n : Nat} {s : σ} {e : ε}
    (hbody : ∀ i s, body i s ≠ .error e) : loop lo n body s ≠ .error e := by
  induction n generalizing lo s with
  | zero => simp
  | succ n ih =>
    rw [loop_succ, Ne, bind_error]
    rintro (h | ⟨s1, -, h⟩)
    · exact hbody lo s h
    · exact ih h

end Relis.Run
