import Mathlib.Tactic
import Relis.Code.Keyboard

/-!
# The modifiers and the keys that are held

One flag is for both shift keys, and the codes of the right ctrl and alt keys set none.
-/

open Relis.Code

namespace Relis.Keyboard

/-! ## The flags alone -/

structure Mods where
  shift : Bool
  ctrl : Bool
  alt : Bool
  extended : Bool
  deriving DecidableEq

def mods (k : Code.Keyboard) : Mods := ⟨k.shift, k.ctrl, k.alt, k.extended⟩

namespace Mods

def press (m : Mods) (sc : BitVec 8) : Mods :=
  if sc == 0x2A || sc == 0x36 then { m with shift := true }
  else if sc == 0x1D then { m with ctrl := true }
  else if sc == 0x38 then { m with alt := true }
  else m

def release (m : Mods) (r : BitVec 8) : Mods :=
  { m with
    shift := if r == 0x2A || r == 0x36 then false else m.shift
    ctrl := if r == 0x1D then false else m.ctrl
    alt := if r == 0x38 then false else m.alt }

def irq (m : Mods) (sc : BitVec 8) : Mods :=
  if sc = 0xE0 then { m with extended := true }
  else if m.extended then { m with extended := false }
  else if sc &&& 0x80 ≠ 0 then m.release (sc &&& 0x7F)
  else m.press sc

end Mods

theorem mods_push (k : Code.Keyboard) (b : KeyByte) : mods (k.push b) = mods k := by
  dsimp only [Code.Keyboard.push]
  split_ifs
  · rfl
  · rfl

theorem mods_key_press (k : Code.Keyboard) (sc : BitVec 8) :
    mods (key_press k sc) = (mods k).press sc := by
  unfold key_press Mods.press
  by_cases hshift : (sc == 0x2A || sc == 0x36) = true
  · rw [if_pos hshift, if_pos hshift]
    rfl
  rw [if_neg hshift, if_neg hshift]
  by_cases hctrl : (sc == 0x1D) = true
  · rw [if_pos hctrl, if_pos hctrl]
    rfl
  rw [if_neg hctrl, if_neg hctrl]
  by_cases halt : (sc == 0x38) = true
  · rw [if_pos halt, if_pos halt]
    rfl
  rw [if_neg halt, if_neg halt]
  -- a lock key, a character, or nothing
  split_ifs
  · rfl
  · rfl
  · rfl
  · cases key_char k sc with
    | none => rfl
    | some c => exact mods_push k _

theorem mods_kb_irq (k : Code.Keyboard) (sc : BitVec 8) : mods (kb_irq k sc) = (mods k).irq sc := by
  unfold kb_irq Mods.irq
  by_cases hbefore : sc = 0xE0
  · rw [if_pos hbefore, if_pos hbefore]
    rfl
  rw [if_neg hbefore, if_neg hbefore]
  by_cases hext : k.extended = true
  · have hext' : (mods k).extended = true := hext
    rw [if_pos hext, if_pos hext']
    dsimp only
    split_ifs
    · rfl
    · rw [mods_push, mods_push]
      rfl
  have hext' : ¬(mods k).extended = true := hext
  rw [if_neg hext, if_neg hext']
  by_cases hrelease : sc &&& 0x80 ≠ 0
  · rw [if_pos hrelease, if_pos hrelease]
    rfl
  · rw [if_neg hrelease, if_neg hrelease, mods_key_press]

def irqs (run : List KbEvent) : List (BitVec 8) :=
  run.filterMap fun
    | .irq sc => some sc
    | .poll => none

def Mods.start : Mods := ⟨false, false, false, false⟩

theorem mods_kb_run (run : List KbEvent) :
    mods (kb_run run).kb = (irqs run).foldl Mods.irq .start := by
  induction run using List.reverseRecOn with
  | nil => rfl
  | append_singleton run e ih =>
    rw [kb_run, List.foldl_append, List.foldl_cons, List.foldl_nil, ← kb_run, irqs,
      List.filterMap_append, ← irqs, List.foldl_append, ← ih]
    cases e with
    | irq sc => exact mods_kb_irq _ sc
    | poll =>
      change mods (poll_step _).kb = mods _
      unfold poll_step
      split
      · rfl
      · rfl
      · rfl
      · rfl

/-! ## The keys -/

/-- A key, with the code of its press. An extended one comes behind a prefix, which is no code. -/
structure Key where
  ext : Bool
  code : BitVec 8
  press : code &&& 0x80 = 0
  no_prefix : code ≠ 0x60
  deriving DecidableEq

def left_shift : Key := ⟨false, 0x2A, rfl, by decide⟩
def right_shift : Key := ⟨false, 0x36, rfl, by decide⟩
def left_ctrl : Key := ⟨false, 0x1D, rfl, by decide⟩
def right_ctrl : Key := ⟨true, 0x1D, rfl, by decide⟩
def left_alt : Key := ⟨false, 0x38, rfl, by decide⟩
def right_alt : Key := ⟨true, 0x38, rfl, by decide⟩

/-- The pause key has no release of its own. A key that is held may be pressed again and again. -/
inductive KeyEvent
  | press (k : Key)
  | release (k : Key)
  | pause
  deriving DecidableEq

def lead (k : Key) : List (BitVec 8) := if k.ext then [0xE0] else []

def scancodes : KeyEvent → List (BitVec 8)
  | .press k => lead k ++ [k.code]
  | .release k => lead k ++ [k.code ||| 0x80]
  | .pause => [0xE1, 0x1D, 0x45, 0xE1, 0x9D, 0xC5]

def hold (h : Key → Bool) : KeyEvent → Key → Bool
  | .press k => Function.update h k true
  | .release k => Function.update h k false
  | .pause => h

def held (es : List KeyEvent) : Key → Bool := es.foldl hold fun _ => false

theorem held_append (es : List KeyEvent) (e : KeyEvent) : held (es ++ [e]) = hold (held es) e := by
  rw [held, List.foldl_append]
  rfl

inductive Moment (es : List KeyEvent) : List KeyEvent → List (BitVec 8) → Prop
  | between (es1 es2 : List KeyEvent) : es = es1 ++ es2 → Moment es es1 []
  | inside (es1 : List KeyEvent) (e : KeyEvent) (es2 : List KeyEvent) (bs : List (BitVec 8)) :
    es = es1 ++ e :: es2 → bs <+: scancodes e → bs ≠ scancodes e → Moment es es1 bs

def Right (m : Mods) (h : Key → Bool) : Prop :=
  m.shift = (h left_shift || h right_shift) ∧ m.ctrl = (h left_ctrl || h right_ctrl) ∧
    m.alt = (h left_alt || h right_alt)

/-- The flags are right at every moment, with polls anywhere in between. -/
def Tracks (es : List KeyEvent) : Prop :=
  ∀ es1 bs run, Moment es es1 bs → irqs run = es1.flatMap scancodes ++ bs →
    Right (mods (kb_run run).kb) (held es1)

def Covered (h : Key → Bool) : Prop :=
  (h right_ctrl = true → h left_ctrl = true) ∧ (h right_alt = true → h left_alt = true)

def Allowed (h : Key → Bool) : KeyEvent → Prop
  | .press k => Covered (hold h (.press k))
  | .release k => (k = left_shift → h right_shift = false) ∧ (k = right_shift → h left_shift = false) ∧
    Covered (hold h (.release k))
  | .pause => False

def Careful (es : List KeyEvent) : Prop := ∀ es1 e es2, es = es1 ++ e :: es2 → Allowed (held es1) e

variable {m : Mods} {h : Key → Bool} {e : KeyEvent} {es : List KeyEvent}

/-! ## What an event does to the flags -/

theorem Key.code_ne (k : Key) : k.code ≠ 0xE0 ∧ k.code ||| 0x80 ≠ 0xE0 := by
  have hall : ∀ c : BitVec 8, c &&& 0x80 = 0 → c ≠ 0x60 → c ≠ 0xE0 ∧ c ||| 0x80 ≠ 0xE0 := by decide
  exact hall k.code k.press k.no_prefix

theorem code_release (c : BitVec 8) (hc : c &&& 0x80 = 0) :
    (c ||| 0x80) &&& 0x80 ≠ 0 ∧ (c ||| 0x80) &&& 0x7F = c := by
  revert c
  decide

theorem foldl_lead (k : Key) {c : BitVec 8} (hc : c ≠ 0xE0) (hm : m.extended = false) :
    (lead k ++ [c]).foldl Mods.irq m = if k.ext then m else m.irq c := by
  obtain ⟨shift, ctrl, alt, extended⟩ := m
  cases hm
  cases hext : k.ext with
  | false =>
    rw [lead, hext]
    rfl
  | true =>
    rw [lead, hext]
    change Mods.irq ⟨shift, ctrl, alt, true⟩ c = _
    rw [Mods.irq, if_neg hc]
    rfl

theorem key_cases (k : Key) : (k = left_shift ∨ k = right_shift ∨ k = left_ctrl ∨ k = left_alt) ∨
    (k ≠ left_shift ∧ k ≠ right_shift ∧ k ≠ left_ctrl ∧ k ≠ left_alt) ∧
      (k.ext = true ∨ k.code ≠ 0x2A ∧ k.code ≠ 0x36 ∧ k.code ≠ 0x1D ∧ k.code ≠ 0x38) := by
  have heq : ∀ x : Key, x.ext = false → k.ext = false → k.code = x.code → k = x := by
    intro x hx hk hcode
    obtain ⟨ext, code, _, _⟩ := x
    obtain ⟨ext', code', _, _⟩ := k
    cases hx
    cases hk
    cases hcode
    rfl
  by_cases hfour : k = left_shift ∨ k = right_shift ∨ k = left_ctrl ∨ k = left_alt
  · exact .inl hfour
  · simp only [not_or] at hfour
    refine .inr ⟨hfour, ?_⟩
    cases hext : k.ext with
    | true => exact .inl rfl
    | false =>
      obtain ⟨h1, h2, h3, h4⟩ := hfour
      exact .inr ⟨fun h => h1 (heq _ rfl hext h), fun h => h2 (heq _ rfl hext h),
        fun h => h3 (heq _ rfl hext h), fun h => h4 (heq _ rfl hext h)⟩

theorem press_other {c : BitVec 8} (hc : c ≠ 0x2A ∧ c ≠ 0x36 ∧ c ≠ 0x1D ∧ c ≠ 0x38) :
    m.press c = m := by
  obtain ⟨h1, h2, h3, h4⟩ := hc
  rw [Mods.press, beq_false_of_ne h1, beq_false_of_ne h2, beq_false_of_ne h3, beq_false_of_ne h4]
  rfl

theorem release_other {c : BitVec 8} (hc : c ≠ 0x2A ∧ c ≠ 0x36 ∧ c ≠ 0x1D ∧ c ≠ 0x38) :
    m.release c = m := by
  obtain ⟨h1, h2, h3, h4⟩ := hc
  rw [Mods.release, beq_false_of_ne h1, beq_false_of_ne h2, beq_false_of_ne h3, beq_false_of_ne h4]
  rfl

theorem irq_press (k : Key) (hm : m.extended = false) : m.irq k.code = m.press k.code := by
  rw [Mods.irq, if_neg k.code_ne.1, hm]
  exact if_neg (not_not_intro k.press)

theorem irq_release (k : Key) (hm : m.extended = false) :
    m.irq (k.code ||| 0x80) = m.release k.code := by
  obtain ⟨hrelease, hcode⟩ := code_release k.code k.press
  rw [Mods.irq, if_neg k.code_ne.2, hm, hcode]
  exact if_pos hrelease

theorem foldl_press (k : Key) (hm : m.extended = false) :
    (scancodes (.press k)).foldl Mods.irq m = { m with
      shift := m.shift || (k == left_shift || k == right_shift)
      ctrl := m.ctrl || k == left_ctrl
      alt := m.alt || k == left_alt } := by
  rcases key_cases k with hfour | ⟨⟨h1, h2, h3, h4⟩, hcode⟩
  · obtain ⟨shift, ctrl, alt, extended⟩ := m
    cases hm
    revert shift ctrl alt
    rcases hfour with rfl | rfl | rfl | rfl
    iterate 4 decide
  · rw [scancodes, foldl_lead k k.code_ne.1 hm, irq_press k hm, beq_false_of_ne h1, beq_false_of_ne h2,
      beq_false_of_ne h3, beq_false_of_ne h4]
    rcases hcode with hext | hcode
    · simp [hext]
    · simp [press_other hcode]

theorem foldl_release (k : Key) (hm : m.extended = false) :
    (scancodes (.release k)).foldl Mods.irq m = { m with
      shift := m.shift && !(k == left_shift || k == right_shift)
      ctrl := m.ctrl && !(k == left_ctrl)
      alt := m.alt && !(k == left_alt) } := by
  rcases key_cases k with hfour | ⟨⟨h1, h2, h3, h4⟩, hcode⟩
  · obtain ⟨shift, ctrl, alt, extended⟩ := m
    cases hm
    revert shift ctrl alt
    rcases hfour with rfl | rfl | rfl | rfl
    iterate 4 decide
  · rw [scancodes, foldl_lead k k.code_ne.2 hm, irq_release k hm, beq_false_of_ne h1, beq_false_of_ne h2,
      beq_false_of_ne h3, beq_false_of_ne h4]
    rcases hcode with hext | hcode
    · simp [hext]
    · simp [release_other hcode]

theorem hold_press (h : Key → Bool) (k x : Key) : hold h (.press k) x = (h x || k == x) := by
  by_cases hx : x = k
  · simp [hold, hx]
  · simp [hold, hx, Ne.symm hx]

theorem hold_release (h : Key → Bool) (k x : Key) : hold h (.release k) x = (h x && !(k == x)) := by
  by_cases hx : x = k
  · simp [hold, hx]
  · simp [hold, hx, Ne.symm hx]

structure LeftOnly (m : Mods) (h : Key → Bool) : Prop where
  extended : m.extended = false
  ctrl : m.ctrl = h left_ctrl
  alt : m.alt = h left_alt

theorem LeftOnly.next (hleft : LeftOnly m h) (he : e ≠ .pause) :
    LeftOnly ((scancodes e).foldl Mods.irq m) (hold h e) := by
  cases e with
  | press k =>
    rw [foldl_press k hleft.extended]
    refine ⟨hleft.extended, ?_, ?_⟩
    · rw [hold_press, ← hleft.ctrl]
    · rw [hold_press, ← hleft.alt]
  | release k =>
    rw [foldl_release k hleft.extended]
    refine ⟨hleft.extended, ?_, ?_⟩
    · rw [hold_release, ← hleft.ctrl]
    · rw [hold_release, ← hleft.alt]
  | pause => exact absurd rfl he

theorem shift_next (hext : m.extended = false) (hshift : m.shift = (h left_shift || h right_shift))
    (he : Allowed h e) :
    ((scancodes e).foldl Mods.irq m).shift = (hold h e left_shift || hold h e right_shift) := by
  cases e with
  | press k =>
    rw [foldl_press k hext, hold_press, hold_press]
    change (m.shift || _) = _
    rw [hshift]
    ac_rfl
  | release k =>
    rw [foldl_release k hext, hold_release, hold_release]
    change (m.shift && _) = _
    rw [hshift]
    by_cases hl : k = left_shift
    · have hr := he.1 hl
      simp [hl, hr]
    by_cases hr : k = right_shift
    · have hl := he.2.1 hr
      simp [hr, hl]
    · rw [beq_false_of_ne hl, beq_false_of_ne hr]
      simp
  | pause => exact he.elim

/-! ## Histories -/

def after (es : List KeyEvent) : Mods := (es.flatMap scancodes).foldl Mods.irq .start

theorem after_append (es : List KeyEvent) (e : KeyEvent) :
    after (es ++ [e]) = (scancodes e).foldl Mods.irq (after es) := by
  rw [after, List.flatMap_append, List.flatMap_singleton, List.foldl_append]
  rfl

theorem careful_nil : Careful [] := by
  intro es1 e es2 h
  simp at h

theorem careful_append : Careful (es ++ [e]) ↔ Careful es ∧ Allowed (held es) e := by
  constructor
  · intro h
    refine ⟨fun es1 e' es2 hes => h es1 e' (es2 ++ [e]) (by simp [hes]), h es e [] rfl⟩
  · rintro ⟨hes, he⟩ es1 e' es2 heq
    rcases List.eq_nil_or_concat es2 with rfl | ⟨es3, x, rfl⟩
    · obtain ⟨rfl, hlast⟩ := List.append_inj' heq rfl
      cases hlast
      exact he
    · refine hes es1 e' es3 ?_
      have heq' : es ++ [e] = (es1 ++ e' :: es3) ++ [x] := by simpa using heq
      exact (List.append_inj' heq' rfl).1

structure Tracked (m : Mods) (h : Key → Bool) : Prop where
  left : LeftOnly m h
  shift : m.shift = (h left_shift || h right_shift)
  covered : Covered h

theorem Careful.tracked (h : Careful es) : Tracked (after es) (held es) := by
  induction es using List.reverseRecOn with
  | nil => exact ⟨⟨rfl, rfl, rfl⟩, rfl, by simp [held], by simp [held]⟩
  | append_singleton es e ih =>
    obtain ⟨hes, he⟩ := careful_append.mp h
    obtain ⟨hleft, hshift, -⟩ := ih hes
    rw [after_append, held_append]
    refine ⟨hleft.next ?_, shift_next hleft.extended hshift he, ?_⟩
    · rintro rfl
      exact he
    · cases e with
      | press k => exact he
      | release k => exact he.2.2
      | pause => exact he.elim

theorem Tracked.right (h' : Tracked m h) : Right m h := by
  obtain ⟨hctrl, halt⟩ := h'.covered
  refine ⟨h'.shift, ?_, ?_⟩
  · rw [h'.left.ctrl]
    cases hr : h right_ctrl with
    | false => simp
    | true => simp [hctrl hr]
  · rw [h'.left.alt]
    cases hr : h right_alt with
    | false => simp
    | true => simp [halt hr]

theorem foldl_inside {bs : List (BitVec 8)} (he : e ≠ .pause) (hbs : bs <+: scancodes e)
    (hne : bs ≠ scancodes e) :
    bs.foldl Mods.irq m = m ∨ bs.foldl Mods.irq m = { m with extended := true } := by
  obtain ⟨k, c, hcodes⟩ : ∃ k c, scancodes e = lead k ++ [c] := by
    cases e with
    | press k => exact ⟨k, _, rfl⟩
    | release k => exact ⟨k, _, rfl⟩
    | pause => exact absurd rfl he
  rw [hcodes] at hbs hne
  have hlead : bs <+: lead k := by
    rcases List.prefix_concat_iff.mp hbs with hall | hlead
    · exact absurd hall hne
    · exact hlead
  unfold lead at hlead
  split_ifs at hlead
  · rcases List.prefix_cons_iff.mp hlead with rfl | ⟨t, rfl, ht⟩
    · exact .inl rfl
    · cases List.prefix_nil.mp ht
      exact .inr rfl
  · cases List.prefix_nil.mp hlead
    exact .inl rfl

theorem tracks_iff_right :
    Tracks es ↔ ∀ es1 bs, Moment es es1 bs → Right (bs.foldl Mods.irq (after es1)) (held es1) := by
  constructor
  · intro htracks es1 bs hmoment
    have hirqs : irqs ((es1.flatMap scancodes ++ bs).map .irq) = es1.flatMap scancodes ++ bs := by
      simp [irqs, List.filterMap_map]
    have hright := htracks es1 bs _ hmoment hirqs
    rwa [mods_kb_run, hirqs, List.foldl_append] at hright
  · intro hright es1 bs run hmoment hirqs
    rw [mods_kb_run, hirqs, List.foldl_append]
    exact hright es1 bs hmoment

theorem Careful.tracks (h : Careful es) : Tracks es := by
  rw [tracks_iff_right]
  intro es1 bs hmoment
  cases hmoment with
  | between es2 heq =>
    have hes1 : Careful es1 := fun a e b hab => h a e (b ++ es2) (by simp [heq, hab])
    exact hes1.tracked.right
  | inside e es2 _ heq hbs hne =>
    have hes1 : Careful es1 := fun a e' b hab => h a e' (b ++ e :: es2) (by simp [heq, hab])
    have he : e ≠ .pause := by
      rintro rfl
      exact h es1 .pause es2 heq
    rcases foldl_inside he hbs hne with hsame | hstart
    · rw [hsame]
      exact hes1.tracked.right
    · rw [hstart]
      exact hes1.tracked.right

theorem not_right_pause (hext : m.extended = false) (h1 : Right ([0xE1, 0x1D].foldl Mods.irq m) h)
    (h2 : Right ([0xE1, 0x1D, 0x45, 0xE1, 0x9D].foldl Mods.irq m) h) : False := by
  obtain ⟨shift, ctrl, alt, extended⟩ := m
  cases hext
  have hon : true = (h left_ctrl || h right_ctrl) := h1.2.1
  have hoff : false = (h left_ctrl || h right_ctrl) := h2.2.1
  exact Bool.noConfusion (hon.trans hoff.symm)

theorem Tracked.allowed (htracked : Tracked m h) (he : e ≠ .pause)
    (hright : Right ((scancodes e).foldl Mods.irq m) (hold h e)) : Allowed h e := by
  have hleft := htracked.left.next he
  obtain ⟨hshift, hctrl, halt⟩ := hright
  have hcovered : Covered (hold h e) := by
    rw [hleft.ctrl] at hctrl
    rw [hleft.alt] at halt
    constructor
    · intro hr
      rw [hctrl, hr, Bool.or_true]
    · intro hr
      rw [halt, hr, Bool.or_true]
  cases e with
  | press k => exact hcovered
  | release k =>
    rw [foldl_release k htracked.left.extended, hold_release, hold_release] at hshift
    have hne : left_shift ≠ right_shift := by decide
    refine ⟨?_, ?_, hcovered⟩
    · rintro rfl
      simpa [hne] using hshift
    · rintro rfl
      simpa [hne.symm] using hshift
  | pause => exact absurd rfl he

theorem Tracks.careful (h : Tracks es) : Careful es := by
  rw [tracks_iff_right] at h
  induction es using List.reverseRecOn with
  | nil => exact careful_nil
  | append_singleton es e ih =>
    have hes : Careful es := by
      refine ih fun es1 bs hmoment => h es1 bs ?_
      cases hmoment with
      | between es2 heq => exact .between es1 (es2 ++ [e]) (by simp [heq])
      | inside e' es2 _ heq hbs hne => exact .inside es1 e' (es2 ++ [e]) bs (by simp [heq]) hbs hne
    refine careful_append.mpr ⟨hes, ?_⟩
    have htracked := hes.tracked
    by_cases he : e = .pause
    · subst he
      have hinside : ∀ bs, bs <+: scancodes .pause → bs ≠ scancodes .pause →
          Right (bs.foldl Mods.irq (after es)) (held es) :=
        fun bs hbs hne => h es bs (.inside es .pause [] bs rfl hbs hne)
      exact not_right_pause htracked.left.extended (hinside _ (by decide) (by decide))
        (hinside _ (by decide) (by decide))
    · refine htracked.allowed he ?_
      have hlast := h (es ++ [e]) [] (.between _ [] (by simp))
      rwa [List.foldl_nil, after_append, held_append] at hlast

/-- For every history of presses and releases. -/
theorem tracks_iff_careful (es : List KeyEvent) : Tracks es ↔ Careful es :=
  ⟨Tracks.careful, Careful.tracks⟩

def Physical (es : List KeyEvent) : Prop :=
  ∀ es1 k es2, es = es1 ++ .release k :: es2 → held es1 k = true

def overlap : List KeyEvent := [.press left_shift, .press right_shift, .release right_shift]

theorem overlap_not_tracked : Physical overlap ∧ ¬Tracks overlap := by
  constructor
  · intro es1 k es2 h
    rcases es1 with _ | ⟨a, _ | ⟨b, _ | ⟨c, es1⟩⟩⟩
    · cases h
    · cases h
    · cases h
      decide
    · simp [overlap] at h
  · intro htracks
    have hright := htracks overlap [] [.irq 0x2A, .irq 0x36, .irq 0xB6] (.between _ [] rfl) rfl
    exact absurd hright.1 (by decide)

end Relis.Keyboard
