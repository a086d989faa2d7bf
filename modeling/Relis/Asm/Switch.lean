import Relis.Asm.Exec

/-!
# Switches between tasks

A task that does not run has seven words on its stack, and the other tasks leave them alone.
-/

open Relis.Bytes Relis.Stack Relis.Code

namespace Relis.Asm

/-- Where a task goes on, and what the caller of `switch_to` relies on. -/
structure Context where
  rip : BitVec 64
  rsp : BitVec 64
  rbx : BitVec 64
  rbp : BitVec 64
  r12 : BitVec 64
  r13 : BitVec 64
  r14 : BitVec 64
  r15 : BitVec 64

def context (c : Cpu) (rip : BitVec 64) : Context :=
  ⟨rip, c.reg .rsp, c.reg .rbx, c.reg .rbp, c.reg .r12, c.reg .r13, c.reg .r14, c.reg .r15⟩

def Context.words (x : Context) : List (BitVec 64) :=
  [x.rip, x.rbp, x.rbx, x.r12, x.r13, x.r14, x.r15]

/-! ## The frame of a task -/

structure Frame (m : Mem) (task : BitVec 64) (x : Context) : Prop where
  rsp : read64 m task.toNat = x.rsp - 56
  words : ∀ i v, x.words[i]? = some v → read64 m (word x.rsp (i + 1)) = v

variable {m m' : Mem} {c : Cpu} {task prev next return_address : BitVec 64} {x : Context}

theorem Frame.of_same (h : Frame m task x) (hrsp : read64 m' task.toNat = read64 m task.toNat)
    (hwords : ∀ i < 7, read64 m' (word x.rsp (i + 1)) = read64 m (word x.rsp (i + 1))) :
    Frame m' task x := by
  refine ⟨hrsp.trans h.rsp, ?_⟩
  intro i v hv
  obtain ⟨hi, -⟩ := List.getElem?_eq_some_iff.mp hv
  rw [hwords i hi, h.words i v hv]

def frameMem (m : Mem) (task : BitVec 64) (x : Context) : Mem :=
  write64 (pushed x.rsp m x.words) task.toNat (x.rsp - 56)

theorem frame_pushed (x : Context) (hapart : ∀ i < 7, Apart task.toNat (word x.rsp (i + 1))) :
    Frame (frameMem m task x) task x := by
  refine ⟨read64_write64_self .., ?_⟩
  intro i v hv
  obtain ⟨hi, -⟩ := List.getElem?_eq_some_iff.mp hv
  have hlen : x.words.length < 2 ^ 60 := by
    change 7 < 2 ^ 60
    omega
  rw [frameMem, read64_write64_ne _ _ (Or.symm (hapart i hi)), read64_pushed hlen hv]

def savedMem (c : Cpu) (prev return_address : BitVec 64) : Mem :=
  frameMem c.mem prev (context c return_address)

def switchPushes : List Reg := [.rbp, .rbx, .r12, .r13, .r14, .r15]

def switchPops : List Reg := [.r15, .r14, .r13, .r12, .rbx, .rbp]

theorem switch_to_eq : switch_to =
    switchPushes.map .push ++
      ([.store .rdi .rsp, .load .rsp .rsi] ++ (switchPops.map .pop ++ [.ret])) :=
  rfl

theorem exec_call : (Instr.call return_address).exec c = c.push return_address := rfl

theorem call_switch_to_eq : call_switch_to c prev next return_address =
    exec (switchPops.map .pop ++ [.ret]) ((Instr.load .rsp .rsi).exec ((Instr.store .rdi .rsp).exec
      (exec (switchPushes.map .push) (((c.set .rdi prev).set .rsi next).push return_address)))) := by
  rw [call_switch_to, exec_cons, exec_call, switch_to_eq, exec_append, exec_append, exec_cons,
    exec_cons, exec_nil]

theorem switch_save (c : Cpu) (prev next return_address : BitVec 64) : let c2 := (Instr.load .rsp .rsi).exec ((Instr.store .rdi .rsp).exec
      (exec (switchPushes.map .push) (((c.set .rdi prev).set .rsi next).push return_address)))
    c2.mem = savedMem c prev return_address ∧
      c2.reg .rsp = read64 (savedMem c prev return_address) next.toNat := by
  have hpush := (pushed_one ((c.set .rdi prev).set .rsi next) return_address).trans
    (pushed_regs switchPushes (by decide) (((c.set .rdi prev).set .rsi next).push return_address))
  generalize exec _ (((c.set .rdi prev).set .rsi next).push return_address) = c1 at hpush
  have hmem : c1.mem = pushed (c.reg .rsp) c.mem (context c return_address).words := hpush.mem
  have hrsp : c1.reg .rsp = c.reg .rsp - 56 := hpush.rsp
  have hrdi : c1.reg .rdi = prev := hpush.reg .rdi (by decide)
  have hrsi : c1.reg .rsi = next := hpush.reg .rsi (by decide)
  have hstore : ((Instr.store .rdi .rsp).exec c1).mem = savedMem c prev return_address := by
    simp only [Instr.exec, hrdi, hrsp, hmem]
    rfl
  have hkeep : ((Instr.store .rdi .rsp).exec c1).reg .rsi = next := hrsi
  generalize (Instr.store .rdi .rsp).exec c1 = c2 at hstore hkeep
  simp only [Instr.exec, set_mem, set_reg_self, hstore, hkeep, and_self]

theorem pop_word (top : BitVec 64) {i : Nat} (hi : i ≤ 7) :
    (top - 56 + BitVec.ofNat 64 (8 * i)).toNat = word top (7 - i) := by
  have h := add_words top hi
  unfold word
  rw [← h]
  rfl

theorem ret_spec (c : Cpu) : let c' := Instr.ret.exec c
    c'.rip = c.top ∧ c'.reg .rsp = c.reg .rsp + 8 ∧ (∀ r, r ≠ .rsp → c'.reg r = c.reg r) ∧
      c'.mem = c.mem :=
  ⟨rfl, set_reg_self (c := c) (r := .rsp), fun _ hr => set_reg_of_ne (c := c) hr, rfl⟩

theorem switch_load (hrsp : c.reg .rsp = x.rsp - 56)
    (hwords : ∀ i v, x.words[i]? = some v → read64 c.mem (word x.rsp (i + 1)) = v) :
    let c' := exec (switchPops.map .pop ++ [.ret]) c
    context c' c'.rip = x ∧ c'.mem = c.mem := by
  have hpop := popped_regs switchPops (by decide) (by decide) c
  rw [exec_append]
  generalize exec (switchPops.map .pop) c = c1 at hpop
  have hreg : ∀ i r v, switchPops[i]? = some r → x.words[6 - i]? = some v → c1.reg r = v := by
    intro i r v hr hv
    obtain ⟨hi, -⟩ := List.getElem?_eq_some_iff.mp hr
    have hi' : i ≤ 5 := Nat.lt_succ_iff.mp hi
    rw [hpop.loaded i r hr, hrsp, pop_word x.rsp (by omega), show 7 - i = 6 - i + 1 by omega,
      hwords _ v hv]
  have hrsp1 : c1.reg .rsp = x.rsp - 56 + BitVec.ofNat 64 (8 * 6) := by
    rw [hpop.rsp, hrsp]
    rfl
  have htop : c1.top = x.rip := by
    rw [Cpu.top, hpop.mem, hrsp1, pop_word x.rsp (by omega)]
    exact hwords 0 x.rip rfl
  have hend : c1.reg .rsp + 8 = x.rsp := by
    rw [hrsp1, add_assoc, show BitVec.ofNat 64 (8 * 6) + 8 = (56 : BitVec 64) by decide, sub_add_cancel]
  rw [exec_cons, exec_nil]
  obtain ⟨hrip, hrsp', hkeep, hmem⟩ := ret_spec c1
  generalize Instr.ret.exec c1 = c2 at hrip hrsp' hkeep hmem
  refine ⟨?_, hmem.trans hpop.mem⟩
  unfold context
  rw [hrip, htop, hrsp', hend, hkeep .rbx (by decide), hkeep .rbp (by decide),
    hkeep .r12 (by decide), hkeep .r13 (by decide), hkeep .r14 (by decide), hkeep .r15 (by decide),
    hreg 0 .r15 x.r15 rfl rfl, hreg 1 .r14 x.r14 rfl rfl, hreg 2 .r13 x.r13 rfl rfl,
    hreg 3 .r12 x.r12 rfl rfl, hreg 4 .rbx x.rbx rfl rfl, hreg 5 .rbp x.rbp rfl rfl]

/-- `switch_to` loads the frame of `next`, as it finds it after it has stored its own. -/
theorem switch_to_spec (h : Frame (savedMem c prev return_address) next x) :
    let c' := call_switch_to c prev next return_address
    context c' c'.rip = x ∧ c'.mem = savedMem c prev return_address := by
  rw [call_switch_to_eq]
  obtain ⟨hmem, hrsp⟩ := switch_save c prev next return_address
  generalize (Instr.load .rsp .rsi).exec _ = c2 at hmem hrsp
  obtain ⟨hcontext, hsame⟩ := switch_load (hrsp.trans h.rsp) fun i v hv => by
    rw [hmem]
    exact h.words i v hv
  exact ⟨hcontext, hsame.trans hmem⟩

/-! ## Many tasks -/

/-- The tasks have a stack each, in `[lo, hi)`. The stacks and the `rsp` fields lie apart from each
other. -/
structure Tasks (ι : Type) where
  task : ι → BitVec 64
  lo : ι → Nat
  hi : ι → Nat
  stack_apart : ∀ i j, i ≠ j → hi i ≤ lo j ∨ hi j ≤ lo i
  struct_apart : ∀ i j, i ≠ j → Apart (task i).toNat (task j).toNat
  apart : ∀ i j, (task i).toNat + 8 ≤ lo j ∨ hi j ≤ (task i).toNat

variable {ι : Type} {T : Tasks ι} {i j : ι}

def Tasks.Fits (T : Tasks ι) (i : ι) (x : Context) : Prop :=
  T.lo i + 56 ≤ x.rsp.toNat ∧ x.rsp.toNat ≤ T.hi i

/-- The state of the machine, and for each task that has been switched out or prepared the context
it is to go on with. -/
structure Switching (ι : Type) where
  cpu : Cpu
  current : ι
  saved : ι → Option Context

def fresh (entry top : BitVec 64) : Context := ⟨entry, top, 0, 0, 0, 0, 0, 0⟩

/-- What `kernel_thread` and `sys_fork` write for a new task. -/
def prepare (c : Cpu) (task : BitVec 64) (x : Context) : Cpu :=
  { c with mem := frameMem c.mem task x }

variable [DecidableEq ι]

inductive Step (T : Tasks ι) : Switching ι → Switching ι → Prop
  | work (s : Switching ι) (c : Cpu)
    (hstacks : ∀ i, i ≠ s.current → ∀ x, T.lo i ≤ x → x < T.hi i → c.mem x = s.cpu.mem x)
    (hstructs : ∀ i, i ≠ s.current → read64 c.mem (T.task i).toNat = read64 s.cpu.mem (T.task i).toNat) :
    Step T s { s with cpu := c }
  | prepare (s : Switching ι) (i : ι) (entry top : BitVec 64) (hother : i ≠ s.current)
    (hnew : s.saved i = none)
    (hfits : T.Fits i (fresh entry top)) :
    Step T s { s with
      cpu := prepare s.cpu (T.task i) (fresh entry top)
      saved := Function.update s.saved i (some (fresh entry top)) }
  | switch (s : Switching ι) (next : ι) (return_address : BitVec 64)
    (hnext : next = s.current ∨ ∃ x, s.saved next = some x)
    (hfits : T.Fits s.current (context s.cpu return_address)) :
    Step T s {
      cpu := call_switch_to s.cpu (T.task s.current) (T.task next) return_address
      current := next
      saved := Function.update s.saved s.current (some (context s.cpu return_address)) }

inductive Reach (T : Tasks ι) : Switching ι → Prop
  | start (c : Cpu) (current : ι) : Reach T ⟨c, current, fun _ => none⟩
  | step {s s' : Switching ι} : Reach T s → Step T s s' → Reach T s'

/-! ## The frames stay -/

omit [DecidableEq ι] in
theorem Tasks.Fits.word (h : T.Fits i x) {k : Nat} (hk : k < 7) :
    T.lo i ≤ Stack.word x.rsp (k + 1) ∧ Stack.word x.rsp (k + 1) + 8 ≤ T.hi i := by
  obtain ⟨hlo, hhi⟩ := h
  rw [word_of_le (by omega)]
  omega

omit [DecidableEq ι] in
theorem Tasks.Fits.struct_apart (h : T.Fits i x) (j : ι) {k : Nat} (hk : k < 7) :
    Apart (T.task j).toNat (Stack.word x.rsp (k + 1)) := by
  have hword := h.word hk
  unfold Apart
  have := T.apart j i
  omega

omit [DecidableEq ι] in
theorem Frame.other {y : Context} (h : Frame m (T.task i) x) (hij : i ≠ j) (hx : T.Fits i x)
    (hy : T.Fits j y) : Frame (frameMem m (T.task j) y) (T.task i) x := by
  unfold frameMem
  apply h.of_same
  · rw [read64_write64_ne _ _ (T.struct_apart i j hij), read64_pushed_of_apart]
    exact fun k hk => hy.struct_apart i hk
  · intro k hk
    rw [read64_write64_ne _ _ (Or.symm (hx.struct_apart j hk)), read64_pushed_of_apart]
    intro l hl
    have h1 := hx.word hk
    have h2 := hy.word (show l < 7 from hl)
    unfold Apart
    have := T.stack_apart i j hij
    omega

def Framed (T : Tasks ι) (s : Switching ι) : Prop :=
  ∀ i, i ≠ s.current → ∀ x, s.saved i = some x → T.Fits i x ∧ Frame s.cpu.mem (T.task i) x

variable {s s' : Switching ι}

theorem Framed.frame (h : Framed T s) {y : Context} (hy : y = context s.cpu return_address)
    (hfits : T.Fits s.current y) (hx : Function.update s.saved s.current (some y) i = some x) :
    T.Fits i x ∧ Frame (savedMem s.cpu (T.task s.current) return_address) (T.task i) x := by
  subst hy
  by_cases hi : i = s.current
  · subst hi
    rw [Function.update_self] at hx
    cases hx
    exact ⟨hfits, frame_pushed _ fun k hk => hfits.struct_apart s.current hk⟩
  · rw [Function.update_of_ne hi] at hx
    obtain ⟨hfits', hframe⟩ := h i hi x hx
    exact ⟨hfits', hframe.other hi hfits' hfits⟩

theorem Framed.switch (h : Framed T s) {next : ι} (hnext : next = s.current ∨ ∃ x, s.saved next = some x)
    (hfits : T.Fits s.current (context s.cpu return_address)) :
    ∃ x, Function.update s.saved s.current (some (context s.cpu return_address)) next = some x ∧
      let c' := call_switch_to s.cpu (T.task s.current) (T.task next) return_address
      context c' c'.rip = x ∧ c'.mem = savedMem s.cpu (T.task s.current) return_address := by
  obtain ⟨x, hx⟩ : ∃ x, Function.update s.saved s.current (some (context s.cpu return_address))
      next = some x := by
    by_cases hself : next = s.current
    · exact ⟨_, by rw [hself, Function.update_self]⟩
    · rw [Function.update_of_ne hself]
      exact hnext.resolve_left hself
  exact ⟨x, hx, switch_to_spec (h.frame rfl hfits hx).2⟩

theorem step_framed (h : Framed T s) (hstep : Step T s s') : Framed T s' := by
  cases hstep with
  | work c hstacks hstructs =>
    intro i hi x hx
    obtain ⟨hfits, hframe⟩ := h i hi x hx
    refine ⟨hfits, hframe.of_same (hstructs i hi) ?_⟩
    intro k hk
    have hword := hfits.word hk
    exact read64_congr fun a hlo hhi => hstacks i hi a (by omega) (by omega)
  | prepare j entry top hother hnew hfits =>
    intro i hi x hx
    by_cases hij : i = j
    · subst hij
      dsimp only at hx
      rw [Function.update_self] at hx
      cases hx
      exact ⟨hfits, frame_pushed _ fun k hk => hfits.struct_apart i hk⟩
    · dsimp only at hx
      rw [Function.update_of_ne hij] at hx
      obtain ⟨hfits', hframe⟩ := h i hi x hx
      exact ⟨hfits', hframe.other hij hfits' hfits⟩
  | switch next return_address hnext hfits =>
    intro i _ x hx
    obtain ⟨-, -, -, hmem⟩ := h.switch hnext hfits
    have hframe := h.frame rfl hfits hx
    dsimp only
    rwa [hmem]

theorem reach_framed (h : Reach T s) : Framed T s := by
  induction h with
  | start c current =>
    rintro i - x hx
    cases hx
  | step _ hstep ih => exact step_framed ih hstep

/-- A task that is switched to goes on where its own last call of `switch_to` returns, or where it was
prepared to start, with the registers it had then. -/
theorem switch_to_resumes (hreach : Reach T s) (next : ι) (return_address : BitVec 64)
    (hnext : next = s.current ∨ ∃ x, s.saved next = some x)
    (hfits : T.Fits s.current (context s.cpu return_address)) :
    ∃ x, Function.update s.saved s.current (some (context s.cpu return_address)) next = some x ∧
      context (call_switch_to s.cpu (T.task s.current) (T.task next) return_address)
        (call_switch_to s.cpu (T.task s.current) (T.task next) return_address).rip = x := by
  obtain ⟨x, hx, hcontext, -⟩ := (reach_framed hreach).switch hnext hfits
  exact ⟨x, hx, hcontext⟩

def twoTasks : Tasks Bool where
  task b := if b then 0x2000 else 0x1000
  lo b := if b then 0x2100 else 0x1100
  hi b := if b then 0x3000 else 0x2000
  stack_apart := by decide
  struct_apart := by
    unfold Apart
    decide
  apart := by decide

def idleCpu : Cpu := ⟨fun _ => 0x1F00, 0, 0x08, 0x10, 0, fun _ => 0⟩

/-- The first task prepares the second one and switches to it, and the second one switches back.
-/
theorem switch_to_resumes_small :
    let c := prepare idleCpu 0x2000 (fresh 0x40 0x3000)
    let d := call_switch_to c 0x1000 0x2000 0x80
    context d d.rip = fresh 0x40 0x3000 ∧
    context (call_switch_to d 0x2000 0x1000 0x90) (call_switch_to d 0x2000 0x1000 0x90).rip =
      context c 0x80 := by
  have hfits : twoTasks.Fits true (fresh 0x40 0x3000) := ⟨by decide, by decide⟩
  have hprepared := Reach.step (Reach.start (T := twoTasks) idleCpu false)
    (.prepare _ true 0x40 0x3000 (by decide) rfl hfits)
  obtain ⟨x, hx, hcontext⟩ := switch_to_resumes hprepared true 0x80 (.inr ⟨_, rfl⟩)
    ⟨by decide, by decide⟩
  cases hx
  have hswitched := hprepared.step (.switch _ true 0x80 (.inr ⟨_, rfl⟩) ⟨by decide, by decide⟩)
  obtain ⟨y, hy, hback⟩ := switch_to_resumes hswitched false 0x90 (.inr ⟨_, rfl⟩)
    ⟨by decide +kernel, by decide +kernel⟩
  cases hy
  exact ⟨hcontext, hback⟩

end Relis.Asm
