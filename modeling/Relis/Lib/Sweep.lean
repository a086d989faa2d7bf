import Mathlib.Data.List.Induction
import Mathlib.Data.Set.Basic

/-!
# Sweeps

Each input names at most one cell of the state, and an idempotent function is applied to it.
Which cell it is may depend on cells that were changed before.
-/

namespace Relis.Sweep

variable {σ ι α ω : Type*} {get : σ → α → ω} {target : σ → ι → Option α} {g : ω → ω} {step : σ → ι → σ}

structure Sweeps (get : σ → α → ω) (target : σ → ι → Option α) (g : ω → ω) (step : σ → ι → σ) :
  Prop where
  hit : ∀ s v a, target s v = some a → get (step s v) a = g (get s a)
  miss : ∀ s v a, target s v ≠ some a → get (step s v) a = get s a
  idem : ∀ w, g (g w) = g w

/-- From `s` on, what the inputs name depends on the cells of `D` only. -/
def Steers (get : σ → α → ω) (target : σ → ι → Option α) (s : σ) (D : Set α) : Prop :=
  ∀ s', (∀ a ∈ D, get s' a = get s a) → ∀ v, target s' v = target s v

def Spares (get : σ → α → ω) (target : σ → ι → Option α) (g : ω → ω) (s : σ) (D : Set α)
    (vs : List ι) : Prop :=
  ∀ v ∈ vs, ∀ a ∈ D, target s v = some a → g (get s a) = get s a

variable {s : σ} {D : Set α} {a : α} {v : ι} {vs : List ι}

theorem Sweeps.fixed (h : Sweeps get target g step) (hw : g (get s a) = get s a) (vs : List ι) :
    get (vs.foldl step s) a = get s a := by
  induction vs generalizing s with
  | nil => rfl
  | cons v vs ih =>
    have hstep : get (step s v) a = get s a := by
      by_cases hv : target s v = some a
      · rw [h.hit s v a hv, hw]
      · exact h.miss s v a hv
    rw [List.foldl_cons, ih (by rw [hstep, hw]), hstep]

structure Swept (get : σ → α → ω) (target : σ → ι → Option α) (g : ω → ω) (s : σ) (vs : List ι)
  (s' : σ) : Prop where
  hit : ∀ v ∈ vs, ∀ a, target s v = some a → get s' a = g (get s a)
  miss : ∀ a, (∀ v ∈ vs, target s v ≠ some a) → get s' a = get s a

theorem Swept.cases {s' : σ} (h : Swept get target g s vs s') (a : α) :
    (∃ v ∈ vs, target s v = some a ∧ get s' a = g (get s a)) ∨ get s' a = get s a := by
  by_cases hex : ∃ v ∈ vs, target s v = some a
  · obtain ⟨v, hv, ha⟩ := hex
    exact .inl ⟨v, hv, ha, h.hit v hv a ha⟩
  · exact .inr (h.miss a fun v hv ha => hex ⟨v, hv, ha⟩)

theorem Swept.same {s' : σ} (h : Swept get target g s vs s') (hvs : Spares get target g s D vs)
    (ha : a ∈ D) : get s' a = get s a := by
  rcases h.cases a with ⟨v, hv, htarget, heq⟩ | heq
  · rw [heq, hvs v hv a ha htarget]
  · exact heq

/-- What a sweep does when it spares the cells that it depends on. -/
theorem Sweeps.run (h : Sweeps get target g step) (hD : Steers get target s D)
    (hvs : Spares get target g s D vs) : Swept get target g s vs (vs.foldl step s) := by
  induction vs using List.reverseRecOn with
  | nil => exact ⟨fun v hv => absurd hv List.not_mem_nil, fun a _ => rfl⟩
  | append_singleton vs w ih =>
    have hpre : Spares get target g s D vs := fun v hv => hvs v (List.mem_append_left _ hv)
    have hswept := ih hpre
    -- The cells of `D` are as before, so the next input names the cell that it named in `s`.
    have htarget := hD _ fun a ha => hswept.same hpre ha
    rw [List.foldl_append, List.foldl_cons, List.foldl_nil]
    constructor
    · intro v hv a ha
      by_cases hw : target s w = some a
      · rw [h.hit _ w a (by rw [htarget, hw])]
        rcases hswept.cases a with ⟨-, -, -, heq⟩ | heq
        · rw [heq, h.idem]
        · rw [heq]
      · rw [h.miss _ w a (by rwa [htarget])]
        rcases List.mem_append.mp hv with hv | hv
        · exact hswept.hit v hv a ha
        · rw [List.mem_singleton.mp hv] at ha
          exact absurd ha hw
    · intro a ha
      rw [h.miss _ w a (by rw [htarget]; exact ha w (by simp))]
      exact hswept.miss a fun v hv => ha v (List.mem_append_left _ hv)

/-- A sweep that does not spare the cells that it depends on changes one of them for good. -/
theorem Sweeps.spoils (h : Sweeps get target g step) (hD : Steers get target s D)
    (hvs : ¬ Spares get target g s D vs) : ∃ a ∈ D, get (vs.foldl step s) a ≠ get s a := by
  -- The first input that changes a cell of `D` leaves it fixed.
  suffices hfirst : ∃ a ∈ D, g (get s a) ≠ get s a ∧ get (vs.foldl step s) a = g (get s a) by
    obtain ⟨a, ha, hne, heq⟩ := hfirst
    exact ⟨a, ha, heq ▸ hne⟩
  induction vs using List.reverseRecOn with
  | nil => exact absurd (fun v hv => absurd hv List.not_mem_nil) hvs
  | append_singleton vs w ih =>
    rw [List.foldl_append]
    by_cases hpre : Spares get target g s D vs
    · have hlast : ∃ a ∈ D, target s w = some a ∧ g (get s a) ≠ get s a := by
        by_contra hnone
        apply hvs
        intro v hv a ha htarget
        rcases List.mem_append.mp hv with hv | hv
        · exact hpre v hv a ha htarget
        · rw [List.mem_singleton.mp hv] at htarget
          by_contra hne
          exact hnone ⟨a, ha, htarget, hne⟩
      obtain ⟨a, ha, hw, hne⟩ := hlast
      have hsame : ∀ b ∈ D, get (vs.foldl step s) b = get s b := fun b hb => (h.run hD hpre).same hpre hb
      refine ⟨a, ha, hne, ?_⟩
      rw [List.foldl_cons, List.foldl_nil, h.hit _ w a (by rw [hD _ hsame, hw]), hsame a ha]
    · obtain ⟨a, ha, hne, heq⟩ := ih hpre
      exact ⟨a, ha, hne, by rw [h.fixed (by rw [heq, h.idem]), heq]⟩

end Relis.Sweep
