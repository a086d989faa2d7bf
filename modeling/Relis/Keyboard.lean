import Mathlib.Data.List.Induction
import Relis.Code.Keyboard
import Relis.Lib.Cyclic

/-!
# The keyboard buffer

The interrupt stores characters and the poll takes them out, one step at a time.
-/

open Relis.Code Relis.Cyclic

namespace Relis.Keyboard

variable {k k' : Code.Keyboard} {b : KeyByte} {sc : BitVec 8} {xs : List (BitVec 8)} {s : KbState}

/-! ## What an interrupt does -/

structure SameRing (k k' : Code.Keyboard) : Prop where
  buf : k'.buf = k.buf
  rp : k'.rp = k.rp
  wp : k'.wp = k.wp
  accepted : k'.accepted = k.accepted
  dropped : k'.dropped = k.dropped
  returned : k'.returned = k.returned

def Extended (k : Code.Keyboard) (sc : BitVec 8) : Prop :=
  sc ≠ 0xE0 ∧ k.extended = true ∧ sc &&& 0x80 = 0

theorem keys_lt {c : BitVec 8} (h : c ∈ normal ∨ c ∈ shifted) : c.toNat < 128 := by
  have hall : (normal ++ shifted).all (fun c => c.toNat < 128) = true := by decide +kernel
  exact of_decide_eq_true (List.all_eq_true.mp hall c (List.mem_append.mpr h))

theorem getD_keys_lt {l : List (BitVec 8)} (h : ∀ c ∈ l, c.toNat < 128) (n : Nat) :
    (l.getD n 0).toNat < 128 := by
  rw [List.getD_eq_getElem?_getD]
  cases hn : l[n]? with
  | none => simp
  | some c => exact h c (List.mem_of_getElem? hn)

theorem key_char_lt {c : BitVec 8} (h : key_char k sc = some c) : c.toNat < 128 := by
  unfold key_char at h
  have htable : ((if k.shift then shifted else normal).getD sc.toNat 0).toNat < 128 := by
    split_ifs
    · exact getD_keys_lt (fun c hc => keys_lt (.inr hc)) _
    · exact getD_keys_lt (fun c hc => keys_lt (.inl hc)) _
  generalize (if k.shift then shifted else normal).getD sc.toNat 0 = d at h htable
  dsimp only at h
  split_ifs at h with hc hl hzero hletter hshift hupper hlower
  · cases h
    decide
  · cases h
    decide
  · cases h
    have hle : d.toNat ≤ 0x5A := (of_decide_eq_true (Bool.and_eq_true_iff.mp hupper).2 :)
    rw [BitVec.toNat_add, show (32 : BitVec 8).toNat = 32 from rfl]
    omega
  · cases h
    exact htable
  · cases h
    have hle : 0x61 ≤ d.toNat := (of_decide_eq_true (Bool.and_eq_true_iff.mp hlower).1 :)
    rw [BitVec.toNat_sub, show (32 : BitVec 8).toNat = 32 from rfl]
    omega
  · cases h
    exact htable
  · cases h
    exact htable

def pressed (k : Code.Keyboard) (sc : BitVec 8) : List KeyByte :=
  if sc ∈ [0x2A, 0x36, 0x1D, 0x38, 0x3A, 0x45, 0x46] then [] else
    ((key_char k sc).map KeyByte.char).toList

def pushes (k : Code.Keyboard) (sc : BitVec 8) : List KeyByte :=
  if sc = 0xE0 then []
  else if k.extended then if sc &&& 0x80 ≠ 0 then [] else [.marker sc, .code sc]
  else if sc &&& 0x80 ≠ 0 then []
  else pressed k sc

theorem key_press_pushes (k : Code.Keyboard) (sc : BitVec 8) :
    ∃ k', SameRing k k' ∧ key_press k sc = (pressed k sc).foldl Code.Keyboard.push k' := by
  unfold pressed
  by_cases hmod : sc ∈ [0x2A, 0x36, 0x1D, 0x38, 0x3A, 0x45, 0x46]
  · rw [if_pos hmod]
    refine ⟨key_press k sc, ?_, rfl⟩
    simp only [List.mem_cons, List.not_mem_nil, or_false] at hmod
    rcases hmod with rfl | rfl | rfl | rfl | rfl | rfl | rfl <;> exact ⟨rfl, rfl, rfl, rfl, rfl, rfl⟩
  · rw [if_neg hmod]
    refine ⟨k, ⟨rfl, rfl, rfl, rfl, rfl, rfl⟩, ?_⟩
    simp only [List.mem_cons, List.not_mem_nil, or_false, not_or] at hmod
    obtain ⟨h1, h2, h3, h4, h5, h6, h7⟩ := hmod
    simp only [key_press, beq_iff_eq, Bool.or_eq_true, h1, h2, h3, h4, h5, h6, h7, or_self, if_false]
    cases key_char k sc with
    | none => rfl
    | some c => rfl

theorem kb_irq_pushes (k : Code.Keyboard) (sc : BitVec 8) :
    ∃ k', SameRing k k' ∧ kb_irq k sc = (pushes k sc).foldl Code.Keyboard.push k' := by
  unfold kb_irq pushes
  split_ifs
  · exact ⟨{ k with extended := true }, ⟨rfl, rfl, rfl, rfl, rfl, rfl⟩, rfl⟩
  · exact ⟨{ k with extended := false }, ⟨rfl, rfl, rfl, rfl, rfl, rfl⟩, rfl⟩
  · exact ⟨{ k with extended := false }, ⟨rfl, rfl, rfl, rfl, rfl, rfl⟩, rfl⟩
  · exact ⟨key_release k (sc &&& 0x7F), ⟨rfl, rfl, rfl, rfl, rfl, rfl⟩, rfl⟩
  · exact key_press_pushes k sc

theorem pressed_cases (k : Code.Keyboard) (sc : BitVec 8) :
    pressed k sc = [] ∨ ∃ c, c.toNat < 128 ∧ pressed k sc = [.char c] := by
  unfold pressed
  split_ifs
  · exact .inl rfl
  · cases hc : key_char k sc with
    | none => exact .inl rfl
    | some c => exact .inr ⟨c, key_char_lt hc, rfl⟩

theorem kb_irq_cases (k : Code.Keyboard) (sc : BitVec 8) :
    ∃ k', SameRing k k' ∧
      ((¬ Extended k sc ∧ kb_irq k sc = k') ∨
      (¬ Extended k sc ∧ ∃ c, c.toNat < 128 ∧ kb_irq k sc = k'.push (.char c)) ∨
      (Extended k sc ∧ kb_irq k sc = (k'.push (.marker sc)).push (.code sc))) := by
  obtain ⟨k', hsame, hirq⟩ := kb_irq_pushes k sc
  refine ⟨k', hsame, ?_⟩
  unfold pushes at hirq
  split_ifs at hirq with hbefore hext hrelease hrelease
  · exact .inl ⟨fun h => h.1 hbefore, hirq⟩
  · exact .inl ⟨fun h => hrelease h.2.2, hirq⟩
  · exact .inr (.inr ⟨⟨hbefore, hext, not_not.mp hrelease⟩, hirq⟩)
  · exact .inl ⟨fun h => hrelease h.2.2, hirq⟩
  · have hplain : ¬ Extended k sc := fun h => hext h.2.1
    rcases pressed_cases k sc with hnone | ⟨c, hc, hone⟩
    · rw [hnone] at hirq
      exact .inl ⟨hplain, hirq⟩
    · rw [hone] at hirq
      exact .inr (.inl ⟨hplain, c, hc, hirq⟩)

/-! ## The characters in the buffer -/

structure Stored (k : Code.Keyboard) (xs : List (BitVec 8)) : Prop where
  queue : Queue 256 k.buf k.rp.toNat k.wp.toNat xs
  stream : k.accepted.map KeyByte.byte = k.returned ++ xs
  dropped : ∀ d ∈ k.dropped, d = 255

theorem next_toNat {p : BitVec 32} (h : p.toNat < 256) (d : Nat) (hd : d ≤ 2) :
    ((p + BitVec.ofNat 32 d) % KB_BUF_SIZE).toNat = slot 256 p.toNat d := by
  have hsum : (p + BitVec.ofNat 32 d).toNat = p.toNat + d := by
    rw [BitVec.toNat_add, BitVec.toNat_ofNat]
    omega
  rw [BitVec.toNat_umod, hsum]
  rfl

theorem Stored.next_wp (h : Stored k xs) : ((k.wp + 1) % KB_BUF_SIZE).toNat = slot 256 k.wp.toNat 1 :=
  next_toNat h.queue.stop_lt 1 (by omega)

theorem Stored.full_iff (h : Stored k xs) : (k.wp + 1) % KB_BUF_SIZE = k.rp ↔ xs.length = 255 := by
  rw [← BitVec.toNat_inj, h.next_wp, h.queue.full_iff]
  omega

theorem Stored.waiting (h : Stored k xs) : k.accepted.length - k.returned.length = xs.length := by
  have hlen := congrArg List.length h.stream
  rw [List.length_map, List.length_append] at hlen
  omega

theorem Stored.same (h : Stored k xs) (hsame : SameRing k k') : Stored k' xs := by
  obtain ⟨hqueue, hstream, hdropped⟩ := h
  refine ⟨?_, ?_, ?_⟩
  · rwa [hsame.buf, hsame.rp, hsame.wp]
  · rwa [hsame.accepted, hsame.returned]
  · rwa [hsame.dropped]

theorem push_spec (h : Stored k xs) (b : KeyByte) :
    (xs.length = 255 ∧ Stored (k.push b) xs ∧ (k.push b).accepted = k.accepted) ∨
      (xs.length ≠ 255 ∧ Stored (k.push b) (xs ++ [b.byte]) ∧
        (k.push b).accepted = k.accepted ++ [b]) := by
  unfold Code.Keyboard.push
  by_cases hfull : (k.wp + 1) % KB_BUF_SIZE = k.rp
  · have hlen := h.full_iff.mp hfull
    rw [if_neg (not_not.mpr hfull)]
    refine .inl ⟨hlen, ⟨h.queue, h.stream, ?_⟩, rfl⟩
    intro d hd
    rcases List.mem_append.mp hd with hd | hd
    · exact h.dropped d hd
    · rw [List.mem_singleton.mp hd, h.waiting, hlen]
  · rw [if_pos hfull]
    refine .inr ⟨fun hlen => hfull (h.full_iff.mpr hlen), ⟨?_, ?_, h.dropped⟩, rfl⟩
    · have hroom : slot 256 k.wp.toNat 1 ≠ k.rp.toNat := by
        rw [← h.next_wp]
        exact fun heq => hfull (BitVec.toNat_inj.mp heq)
      simpa only [h.next_wp] using h.queue.push hroom b.byte
    · simp only [List.map_append, List.map_singleton, h.stream, List.append_assoc]

theorem pushes_accepted (h : Stored k xs) (bs : List KeyByte) :
    (bs.foldl Code.Keyboard.push k).accepted = k.accepted ++ bs.take (255 - xs.length) := by
  induction bs generalizing k xs with
  | nil => simp
  | cons b bs ih =>
    have hlt := h.queue.length_lt
    rcases push_spec h b with ⟨hlen, hs, haccepted⟩ | ⟨hlen, hs, haccepted⟩
    · rw [List.foldl_cons, ih hs, haccepted, hlen]
      simp
    · rw [List.foldl_cons, ih hs, haccepted, List.length_append, List.length_singleton,
        show 255 - xs.length = 255 - (xs.length + 1) + 1 by omega, List.take_succ_cons,
        List.append_assoc, List.singleton_append]

theorem push_stored (h : Stored k xs) (b : KeyByte) : ∃ ys, Stored (k.push b) (xs ++ ys) := by
  rcases push_spec h b with ⟨-, hs, -⟩ | ⟨-, hs, -⟩
  · exact ⟨[], by rwa [List.append_nil]⟩
  · exact ⟨_, hs⟩

theorem kb_irq_stored (h : Stored k xs) (sc : BitVec 8) : ∃ ys, Stored (kb_irq k sc) (xs ++ ys) := by
  obtain ⟨k', hsame, hcases⟩ := kb_irq_cases k sc
  have h' := h.same hsame
  rcases hcases with ⟨-, heq⟩ | ⟨-, c, -, heq⟩ | ⟨-, heq⟩ <;> rw [heq]
  · exact ⟨[], by rwa [List.append_nil]⟩
  · exact push_stored h' _
  · obtain ⟨ys, h1⟩ := push_stored h' (.marker sc)
    obtain ⟨zs, h2⟩ := push_stored h1 (.code sc)
    exact ⟨ys ++ zs, by rwa [← List.append_assoc]⟩

/-! ## Every run -/

def Expects (xs : List (BitVec 8)) : PollPlace → Prop
  | .out | .test => True
  | .read => xs ≠ []
  | .update c => xs.head? = some c

theorem Expects.append {p : PollPlace} (h : Expects xs p) (ys : List (BitVec 8)) :
    Expects (xs ++ ys) p := by
  cases p with
  | out => trivial
  | test => trivial
  | read =>
    intro hnil
    exact h (List.append_eq_nil_iff.mp hnil).1
  | update c => simp [Expects, List.head?_append, show xs.head? = some c from h]

def Sound (s : KbState) : Prop := ∃ xs, Stored s.kb xs ∧ Expects xs s.poll

theorem poll_step_sound (h : Sound s) : Sound (poll_step s) := by
  obtain ⟨xs, hstored, hexpects⟩ := h
  unfold poll_step
  cases hplace : s.poll with
  | out => exact ⟨xs, hstored, trivial⟩
  | test =>
    refine ⟨xs, hstored, ?_⟩
    simp only
    split_ifs with hne
    · intro hnil
      exact hne (BitVec.toNat_inj.mp (hstored.queue.empty_iff.mpr hnil))
    · trivial
  | read =>
    rw [hplace] at hexpects
    obtain ⟨x, ys, rfl⟩ := List.exists_cons_of_ne_nil hexpects
    refine ⟨x :: ys, hstored, ?_⟩
    simp [Expects, hstored.queue.head]
  | update c =>
    rw [hplace] at hexpects
    obtain ⟨ys, rfl⟩ := List.head?_eq_some_iff.mp hexpects
    refine ⟨ys, ⟨?_, ?_, hstored.dropped⟩, trivial⟩
    · have hnext := next_toNat hstored.queue.start_lt 1 (by omega)
      exact hnext.symm ▸ hstored.queue.pop
    · simp only [hstored.stream, List.append_assoc, List.singleton_append]

theorem kb_step_sound (h : Sound s) (e : KbEvent) : Sound (kb_step s e) := by
  cases e with
  | irq sc =>
    obtain ⟨xs, hstored, hexpects⟩ := h
    obtain ⟨ys, hstored'⟩ := kb_irq_stored hstored sc
    exact ⟨xs ++ ys, hstored', hexpects.append ys⟩
  | poll => exact poll_step_sound h

theorem kb_run_append (events : List KbEvent) (e : KbEvent) :
    kb_run (events ++ [e]) = kb_step (kb_run events) e := by
  simp [kb_run]

theorem kb_run_sound (events : List KbEvent) : Sound (kb_run events) := by
  induction events using List.reverseRecOn with
  | nil =>
    exact ⟨[], ⟨Queue.nil (by decide), rfl, by simp [kb_run, keyboard_init, Keyboard.zero]⟩,
      trivial⟩
  | append_singleton events e ih =>
    rw [kb_run_append]
    exact kb_step_sound ih e

/-- The polls give back a first part of what `push` has accepted. Of the characters that
an interrupt pushes it accepts the first ones, until 255 of them wait. -/
theorem polls_in_order (events : List KbEvent) :
    let k := (kb_run events).kb
    k.rp < KB_BUF_SIZE ∧ k.wp < KB_BUF_SIZE ∧ k.returned <+: k.accepted.map KeyByte.byte ∧
      (∀ waiting ∈ k.dropped, waiting = 255) ∧
      ∀ sc, (kb_run (events ++ [.irq sc])).kb.accepted =
        k.accepted ++ (pushes k sc).take (255 - (k.accepted.length - k.returned.length)) := by
  intro k
  obtain ⟨xs, hstored, -⟩ := kb_run_sound events
  refine ⟨hstored.queue.start_lt, hstored.queue.stop_lt, ?_, hstored.dropped, ?_⟩
  · rw [hstored.stream]
    exact List.prefix_append _ _
  · intro sc
    obtain ⟨k', hsame, hirq⟩ := kb_irq_pushes k sc
    have haccepted := pushes_accepted (hstored.same hsame) (pushes k sc)
    rw [hsame.accepted, ← hirq] at haccepted
    rw [kb_run_append, hstored.waiting]
    exact haccepted

/-! ## Extended keys -/

/-- Single characters, and markers with the code of their key. -/
def Paired : List KeyByte → Prop
  | [] => True
  | .char c :: l => c ≠ 0xE0 ∧ Paired l
  | .marker sc :: .code sc' :: l => sc' = sc ∧ Paired l
  | _ => False

instance Paired.decide : (l : List KeyByte) → Decidable (Paired l)
  | [] => isTrue trivial
  | .char c :: l =>
    have := Paired.decide l
    inferInstanceAs (Decidable (c ≠ 0xE0 ∧ Paired l))
  | [.marker _] => isFalse id
  | .marker sc :: .code sc' :: l =>
    have := Paired.decide l
    inferInstanceAs (Decidable (sc' = sc ∧ Paired l))
  | .marker _ :: .char _ :: _ => isFalse id
  | .marker _ :: .marker _ :: _ => isFalse id
  | .code _ :: _ => isFalse id

theorem paired_append {l' : List KeyByte} (l : List KeyByte) (h : ∀ sc r, l' ≠ .code sc :: r) :
    Paired (l ++ l') ↔ Paired l ∧ Paired l' := by
  induction l using Paired.induct with
  | case1 => simp [Paired]
  | case2 c l ih =>
    rw [List.cons_append, Paired, Paired, ih, and_assoc]
  | case3 sc sc' l ih =>
    rw [List.cons_append, List.cons_append, Paired, Paired, ih, and_assoc]
  | case4 l hnil hchar hpair =>
    match l with
    | [] => exact absurd rfl hnil
    | .char c :: l => exact absurd rfl (hchar c l)
    | .marker sc :: .code sc' :: l => exact absurd rfl (hpair sc sc' l)
    | [.marker sc] =>
      match l' with
      | [] => simp [Paired]
      | .code sc' :: r => exact absurd rfl (h sc' r)
      | .char c :: r => simp [Paired]
      | .marker sc' :: r => simp [Paired]
    | .marker _ :: .char _ :: _ => simp [Paired]
    | .marker _ :: .marker _ :: _ => simp [Paired]
    | .code _ :: _ => simp [Paired]

/-- An extended key is pressed when there is room for one character. -/
def Tears (s : KbState) : KbEvent → Prop
  | .irq sc => Extended s.kb sc ∧ (s.kb.wp + 2) % KB_BUF_SIZE = s.kb.rp
  | .poll => False

theorem Stored.tears_iff (h : Stored k xs) : (k.wp + 2) % KB_BUF_SIZE = k.rp ↔ xs.length = 254 := by
  have hlt := h.queue.length_lt
  have hstart := h.queue.start_lt
  have hnext : ((k.wp + 2) % KB_BUF_SIZE).toNat = slot 256 k.wp.toNat 2 :=
    next_toNat h.queue.stop_lt 2 (by omega)
  rw [← BitVec.toNat_inj, hnext, h.queue.stop_eq, slot_slot, slot]
  omega

theorem kb_irq_paired (h : Stored k xs) (sc : BitVec 8) :
    Paired (kb_irq k sc).accepted ↔
      Paired k.accepted ∧ ¬ (Extended k sc ∧ (k.wp + 2) % KB_BUF_SIZE = k.rp) := by
  obtain ⟨k', hsame, hcases⟩ := kb_irq_cases k sc
  have h' := h.same hsame
  rw [h.tears_iff]
  rcases hcases with ⟨hplain, heq⟩ | ⟨hplain, c, hc, heq⟩ | ⟨hext, heq⟩ <;> rw [heq]
  · simp [hsame.accepted, hplain]
  · have hne : c ≠ 0xE0 := by
      rintro rfl
      exact absurd hc (by decide)
    rcases push_spec h' (.char c) with ⟨-, -, hacc⟩ | ⟨-, -, hacc⟩
    · simp [hacc, hsame.accepted, hplain]
    · rw [hacc, hsame.accepted, paired_append _ (by simp)]
      exact ⟨fun hp => ⟨hp.1, fun h => hplain h.1⟩, fun hp => ⟨hp.1, hne, trivial⟩⟩
  · rcases push_spec h' (.marker sc) with ⟨hlen, h1, hacc⟩ | ⟨hlen, h1, hacc⟩
    · -- The buffer is full, so both calls leave it as it is.
      rcases push_spec h1 (.code sc) with ⟨-, -, hacc'⟩ | ⟨hlen', -, -⟩
      · rw [hacc', hacc, hsame.accepted]
        simp [hlen]
      · exact absurd hlen hlen'
    · have hlen1 : (xs ++ [KeyByte.byte (.marker sc)]).length = xs.length + 1 := by simp
      rcases push_spec h1 (.code sc) with ⟨hlen', -, hacc'⟩ | ⟨hlen', -, hacc'⟩
      · rw [hacc', hacc, hsame.accepted, paired_append _ (by simp)]
        simp [Paired, hext]
        omega
      · rw [hacc', hacc, hsame.accepted, List.append_assoc, paired_append _ (by simp)]
        simp [Paired]
        omega

theorem kb_step_paired (h : Sound s) (e : KbEvent) :
    Paired (kb_step s e).kb.accepted ↔ Paired s.kb.accepted ∧ ¬ Tears s e := by
  cases e with
  | irq sc =>
    obtain ⟨xs, hstored, -⟩ := h
    exact kb_irq_paired hstored sc
  | poll =>
    have hacc : (poll_step s).kb.accepted = s.kb.accepted := by
      unfold poll_step
      split <;> rfl
    simp [kb_step, hacc, Tears]

/-- Each marker has its code behind it exactly when no extended key has come with room for one
character. -/
theorem paired_iff (events : List KbEvent) :
    Paired (kb_run events).kb.accepted ↔
      ∀ before e after, events = before ++ e :: after → ¬ Tears (kb_run before) e := by
  induction events using List.reverseRecOn with
  | nil => simp [kb_run, keyboard_init, Keyboard.zero, Paired]
  | append_singleton events e ih =>
    rw [kb_run_append, kb_step_paired (kb_run_sound events), ih]
    constructor
    · rintro ⟨hall, hlast⟩ before e' after heq
      rcases List.eq_nil_or_concat after with rfl | ⟨after, x, rfl⟩
      · obtain ⟨rfl, h⟩ := List.append_inj' heq rfl
        cases h
        exact hlast
      · rw [List.concat_eq_append, ← List.cons_append, ← List.append_assoc] at heq
        exact hall before e' after (List.append_inj' heq rfl).1
    · intro hall
      refine ⟨fun before e' after heq => ?_, hall events e [] rfl⟩
      exact hall before e' (after ++ [e]) (by rw [heq]; simp)

/-- The key A, until there is room for one more character, and then an arrow key. -/
theorem arrow_key_torn :
    ¬ Paired (kb_run (List.replicate 254 (.irq 0x1E) ++ [.irq 0xE0, .irq 0x48])).kb.accepted := by
  decide +kernel

end Relis.Keyboard
