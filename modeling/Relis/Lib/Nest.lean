import Mathlib.Data.List.Basic
import Mathlib.Logic.Function.Basic
import Mathlib.Tactic

/-!
# Locks and interrupts on one CPU

An interrupt puts a handler on top of a context that takes spin locks. A lock that an outer
context holds is never released while an inner one waits for it.
-/

namespace Relis.Nest

/-! ## Code -/

inductive Prog (L σ : Type)
  | done
  | halt
  | lock (l : L) (rest : Prog L σ)
  | unlock (l : L) (rest : Prog L σ)
  | flag (on : Bool) (rest : Prog L σ)
  | step (f : σ → σ) (rest : σ → Prog L σ)

variable {L σ κ ν ω : Type}

def Takes (A : L → Prop) : Prog L σ → Prop
  | .done => True
  | .halt => True
  | .lock l rest => A l ∧ Takes A rest
  | .unlock _ rest => Takes A rest
  | .flag _ _ => False
  | .step _ rest => ∀ s, Takes A (rest s)

variable [DecidableEq L]

/-- The code of a context that holds the locks `held`: it takes no lock twice, releases only what it
holds, and ends with nothing. -/
def Tidy : List L → Prog L σ → Prop
  | held, .done => held = []
  | _, .halt => True
  | held, .lock l rest => l ∉ held ∧ Tidy (l :: held) rest
  | held, .unlock l rest => l ∈ held ∧ Tidy (held.erase l) rest
  | held, .flag _ rest => Tidy held rest
  | held, .step _ rest => ∀ s, Tidy held (rest s)

/-! ## The machine -/

/-- What a context still has to do, and the locks that it holds. No code reads `held`. -/
structure Context (L σ : Type) where
  code : Prog L σ
  held : List L

structure Cpu (L σ : Type) where
  word : L → Bool
  data : σ
  enabled : Bool
  inner : Context L σ
  outer : List (Context L σ)

def Cpu.start (L : Type) (s : σ) : Cpu L σ := ⟨fun _ => false, s, false, ⟨.done, []⟩, []⟩

/-- The next instruction of the innermost context. At its end a handler goes back to what it has
interrupted, which had interrupts on. A lock that is taken is tried again. -/
def exec (c : Cpu L σ) : Cpu L σ :=
  match c.inner.code with
  | .done =>
    match c.outer with
    | [] => c
    | inner :: outer => { c with inner := inner, outer := outer, enabled := true }
  | .halt => c
  | .lock l rest =>
    if c.word l = true then c
    else { c with word := Function.update c.word l true, inner := ⟨rest, l :: c.inner.held⟩ }
  | .unlock l rest =>
    { c with word := Function.update c.word l false, inner := ⟨rest, c.inner.held.erase l⟩ }
  | .flag on rest => { c with enabled := on, inner := ⟨rest, c.inner.held⟩ }
  | .step f rest => { c with data := f c.data, inner := ⟨rest c.data, c.inner.held⟩ }

inductive Event (κ ν ω : Type)
  | call (f : κ)
  | exec
  | interrupt (v : ν)
  | world (e : ω)

structure System (L σ κ ν ω : Type) where
  call : κ → Prog L σ
  handler : ν → σ → Prog L σ
  world : ω → σ → σ

variable (S : System L σ κ ν ω)

/-- A call is made when the last one has ended, and an interrupt waits while interrupts are off. -/
def step (c : Cpu L σ) : Event κ ν ω → Cpu L σ
  | .call f =>
    match c.inner.code, c.outer with
    | .done, [] => { c with inner := ⟨S.call f, c.inner.held⟩ }
    | _, _ => c
  | .exec => exec c
  | .interrupt v =>
    if c.enabled = true then
      { c with inner := ⟨S.handler v c.data, []⟩, outer := c.inner :: c.outer, enabled := false }
    else c
  | .world e => { c with data := S.world e c.data }

def run (c : Cpu L σ) (events : List (Event κ ν ω)) : Cpu L σ := events.foldl (step S) c

def Meets (C : Cpu L σ → Event κ ν ω → Prop) : Cpu L σ → List (Event κ ν ω) → Prop
  | _, [] => True
  | c, e :: events => C c e ∧ Meets C (step S c e) events

/-- The innermost context waits for a lock of an outer one. -/
def Spins (c : Cpu L σ) : Prop := ∃ l rest, c.inner.code = .lock l rest ∧ ∃ o ∈ c.outer, l ∈ o.held

/-! ## What keeps a CPU from spinning -/

/-- There is at most one context below, and if there is one, interrupts are off and `code` takes
none of its locks. -/
def Handles (outer : List (Context L σ)) (enabled : Bool) (code : Prog L σ) : Prop :=
  outer = [] ∨
    ∃ o, outer = [o] ∧ enabled = false ∧ Tidy o.held o.code ∧ o.held.Nodup ∧ Takes (· ∉ o.held) code

/-- The words say which locks are held, and a handler takes no lock of what it has interrupted. -/
structure Sound (c : Cpu L σ) : Prop where
  tidy : Tidy c.inner.held c.inner.code
  nodup : c.inner.held.Nodup
  word : ∀ l, c.word l = true ↔ l ∈ c.inner.held ∨ ∃ o ∈ c.outer, l ∈ o.held
  apart : ∀ o ∈ c.outer, ∀ l ∈ c.inner.held, l ∉ o.held
  outer : Handles c.outer c.enabled c.inner.code

variable {S} {c : Cpu L σ}

theorem sound_start (s : σ) : Sound (Cpu.start L s) where
  tidy := rfl
  nodup := List.nodup_nil
  word := by simp [Cpu.start]
  apart := by simp [Cpu.start]
  outer := .inl rfl

theorem Sound.not_spins (h : Sound c) : ¬Spins c := by
  rintro ⟨l, rest, hcode, o, ho, hl⟩
  rcases h.outer with hnil | ⟨o', hone, -, -, -, htakes⟩
  · rw [hnil] at ho
    cases ho
  · rw [hone, List.mem_singleton] at ho
    rw [hcode, ← ho] at htakes
    exact htakes.1 hl

theorem Handles.next {outer : List (Context L σ)} {enabled : Bool} {code rest : Prog L σ}
    (h : Handles outer enabled code) (hrest : ∀ A : L → Prop, Takes A code → Takes A rest) :
    Handles outer enabled rest := by
  rcases h with hnil | ⟨o, hone, henabled, htidy, hnodup, htakes⟩
  · exact .inl hnil
  · exact .inr ⟨o, hone, henabled, htidy, hnodup, hrest _ htakes⟩

theorem Sound.acquire {l : L} {rest : Prog L σ} (h : Sound c) (hcode : c.inner.code = .lock l rest)
    (hfree : c.word l ≠ true) :
    Sound { c with word := Function.update c.word l true, inner := ⟨rest, l :: c.inner.held⟩ } := by
  obtain ⟨htidy, hnodup, hword, hapart, houter⟩ := h
  rw [hcode] at htidy houter
  have hothers : ∀ o ∈ c.outer, l ∉ o.held := fun o ho hl => hfree ((hword l).mpr (.inr ⟨o, ho, hl⟩))
  refine ⟨htidy.2, List.nodup_cons.mpr ⟨htidy.1, hnodup⟩, fun l' => ?_, ?_,
    houter.next fun _ htakes => htakes.2⟩
  · by_cases hl' : l' = l
    · simp [hl']
    · simp [hl', hword]
  · exact fun o ho => List.forall_mem_cons.mpr ⟨hothers o ho, hapart o ho⟩

theorem Sound.release {l : L} {rest : Prog L σ} (h : Sound c)
    (hcode : c.inner.code = .unlock l rest) :
    Sound
      { c with word := Function.update c.word l false, inner := ⟨rest, c.inner.held.erase l⟩ } := by
  obtain ⟨htidy, hnodup, hword, hapart, houter⟩ := h
  rw [hcode] at htidy houter
  refine ⟨htidy.2, hnodup.erase l, fun l' => ?_, ?_, houter.next fun _ htakes => htakes⟩
  · by_cases hl' : l' = l
    · have hinner : l ∉ c.inner.held.erase l := hnodup.not_mem_erase
      have hothers : ∀ o ∈ c.outer, l ∉ o.held := fun o ho => hapart o ho l htidy.1
      simpa [hl', hinner] using hothers
    · simp [hl', hword, List.mem_erase_of_ne hl']
  · exact fun o ho l' hl' => hapart o ho l' (List.mem_of_mem_erase hl')

theorem Sound.resume {o : Context L σ} (h : Sound c) (hcode : c.inner.code = .done)
    (hone : c.outer = [o]) : Sound { c with inner := o, outer := [], enabled := true } := by
  obtain ⟨htidy, -, hword, -, houter⟩ := h
  rw [hcode] at htidy
  rcases houter with hnil | ⟨o', hone', -, ho, hnodup, -⟩
  · rw [hnil] at hone
    cases hone
  cases hone.symm.trans hone'
  refine ⟨ho, hnodup, fun l => ?_, by simp, .inl rfl⟩
  rw [hword, hone, htidy]
  simp

theorem Sound.exec (h : Sound c) : Sound (exec c) := by
  cases hcode : c.inner.code with
  | done =>
    rcases h.outer with hnil | ⟨o, hone, -⟩
    · have hexec : Nest.exec c = c := by simp [Nest.exec, hcode, hnil]
      rwa [hexec]
    · have hexec : Nest.exec c = { c with inner := o, outer := [], enabled := true } := by
        simp [Nest.exec, hcode, hone]
      rw [hexec]
      exact h.resume hcode hone
  | halt =>
    have hexec : Nest.exec c = c := by simp [Nest.exec, hcode]
    rwa [hexec]
  | lock l rest =>
    by_cases htaken : c.word l = true
    · have hexec : Nest.exec c = c := by simp [Nest.exec, hcode, htaken]
      rwa [hexec]
    · have hexec : Nest.exec c =
          { c with word := Function.update c.word l true, inner := ⟨rest, l :: c.inner.held⟩ } := by
        simp [Nest.exec, hcode, htaken]
      rw [hexec]
      exact h.acquire hcode htaken
  | unlock l rest =>
    have hexec : Nest.exec c =
        { c with word := Function.update c.word l false, inner := ⟨rest, c.inner.held.erase l⟩ } := by
      simp [Nest.exec, hcode]
    rw [hexec]
    exact h.release hcode
  | flag on rest =>
    have hexec : Nest.exec c = { c with enabled := on, inner := ⟨rest, c.inner.held⟩ } := by
      simp [Nest.exec, hcode]
    obtain ⟨htidy, hnodup, hword, hapart, houter⟩ := h
    rw [hcode] at htidy houter
    rw [hexec]
    refine ⟨htidy, hnodup, hword, hapart, .inl ?_⟩
    rcases houter with hnil | ⟨o, -, -, -, -, htakes⟩
    · exact hnil
    · exact htakes.elim
  | step f rest =>
    have hexec : Nest.exec c = { c with data := f c.data, inner := ⟨rest c.data, c.inner.held⟩ } := by
      simp [Nest.exec, hcode]
    obtain ⟨htidy, hnodup, hword, hapart, houter⟩ := h
    rw [hcode] at htidy houter
    rw [hexec]
    exact ⟨htidy c.data, hnodup, hword, hapart, houter.next fun _ htakes => htakes c.data⟩

/-- What one event keeps. Of an interrupt that is taken it asks that its handler takes no
lock of what it interrupts. -/
theorem Sound.step (h : Sound c) (hcall : ∀ f, Tidy [] (S.call f))
    (hhandler : ∀ v s, Tidy [] (S.handler v s)) {e : Event κ ν ω}
    (he : ∀ v, e = .interrupt v → c.enabled = true →
      Takes (· ∉ c.inner.held) (S.handler v c.data)) : Sound (step S c e) := by
  cases e with
  | call f =>
    rw [Nest.step]
    split
    · next hcode hnil =>
      have hheld : c.inner.held = [] := by
        have := h.tidy
        rwa [hcode] at this
      refine ⟨?_, h.nodup, h.word, h.apart, .inl hnil⟩
      rw [hheld]
      exact hcall f
    · exact h
  | exec => exact h.exec
  | interrupt v =>
    rw [Nest.step]
    split_ifs with henabled
    · have hnil : c.outer = [] := by
        rcases h.outer with hnil | ⟨o, -, hoff, -⟩
        · exact hnil
        · rw [henabled] at hoff
          cases hoff
      refine ⟨hhandler v c.data, List.nodup_nil, fun l => ?_, by simp,
        .inr ⟨c.inner, ?_, rfl, h.tidy, h.nodup, he v rfl henabled⟩⟩
      · rw [h.word, hnil]
        simp
      · rw [hnil]
    · exact h
  | world w => exact ⟨h.tidy, h.nodup, h.word, h.apart, h.outer⟩

theorem Sound.run {C : Cpu L σ → Event κ ν ω → Prop} (h : Sound c) (hcall : ∀ f, Tidy [] (S.call f))
    (hhandler : ∀ v s, Tidy [] (S.handler v s))
    (hC : ∀ c v, Sound c → C c (.interrupt v) → c.enabled = true →
      Takes (· ∉ c.inner.held) (S.handler v c.data)) {events : List (Event κ ν ω)}
    (hmeets : Meets S C c events) : Sound (run S c events) := by
  induction events generalizing c with
  | nil => exact h
  | cons e events ih =>
    refine ih (h.step hcall hhandler fun v hv henabled => ?_) hmeets.2
    have hv' := hmeets.1
    rw [hv] at hv'
    exact hC c v h hv' henabled

theorem meets_of_forall {C : Cpu L σ → Event κ ν ω → Prop} {events : List (Event κ ν ω)}
    (h : ∀ e ∈ events, ∀ c, C c e) (c : Cpu L σ) : Meets S C c events := by
  induction events generalizing c with
  | nil => trivial
  | cons e events ih =>
    obtain ⟨he, hevents⟩ := List.forall_mem_cons.mp h
    exact ⟨he c, ih hevents _⟩

theorem Meets.append {C : Cpu L σ → Event κ ν ω → Prop} {events events' : List (Event κ ν ω)}
    (h : Meets S C c events) (h' : Meets S C (Nest.run S c events) events') :
    Meets S C c (events ++ events') := by
  induction events generalizing c with
  | nil => exact h'
  | cons e events ih => exact ⟨h.1, ih h.2 h'⟩

theorem spins_step (hspins : Spins c) (hword : ∀ o ∈ c.outer, ∀ l ∈ o.held, c.word l = true)
    (hoff : c.enabled = false) (e : Event κ ν ω) : ∃ s, step S c e = { c with data := s } := by
  obtain ⟨l, rest, hcode, o, ho, hl⟩ := hspins
  cases e with
  | call f => exact ⟨c.data, by simp [Nest.step, hcode]⟩
  | exec => exact ⟨c.data, by simp [Nest.step, Nest.exec, hcode, hword o ho l hl]⟩
  | interrupt v => exact ⟨c.data, if_neg (by simp [hoff])⟩
  | world w => exact ⟨S.world w c.data, rfl⟩

theorem spins_run (hspins : Spins c) (hword : ∀ o ∈ c.outer, ∀ l ∈ o.held, c.word l = true)
    (hoff : c.enabled = false) (events : List (Event κ ν ω)) : Spins (run S c events) := by
  induction events generalizing c with
  | nil => exact hspins
  | cons e events ih =>
    obtain ⟨s, hstep⟩ := spins_step (S := S) hspins hword hoff e
    rw [run, List.foldl_cons, hstep]
    exact ih hspins hword hoff

end Relis.Nest
