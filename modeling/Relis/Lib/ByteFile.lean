import Mathlib.Tactic
import Relis.Lib.Run

/-!
# A file with several open positions

Readers and writers share the content, and each of them has a position of its own.
-/

namespace Relis.ByteFile

variable {α : Type}

/-! ## A part of a list is replaced -/

def overwrite (l : List α) (pos : Nat) (data : List α) : List α :=
  l.take pos ++ data ++ l.drop (pos + data.length)

variable {l data : List α} {pos : Nat}

theorem length_overwrite (data : List α) (h : pos ≤ l.length) :
    (overwrite l pos data).length = max l.length (pos + data.length) := by
  simp only [overwrite, List.length_append, List.length_take, List.length_drop]
  omega

theorem getElem?_overwrite (h : pos ≤ l.length) (i : Nat) :
    (overwrite l pos data)[i]? = if pos ≤ i ∧
      i < pos + data.length then data[i - pos]? else l[i]? := by
  have htake : (l.take pos).length = pos := by simp [h]
  unfold overwrite
  rw [List.append_assoc]
  rcases Nat.lt_or_ge i pos with hlt | hge
  · rw [if_neg (by omega), List.getElem?_append_left (by omega), List.getElem?_take_of_lt hlt]
  · rw [List.getElem?_append_right (by omega), htake]
    split_ifs with hin
    · rw [List.getElem?_append_left (by omega)]
    · rw [List.getElem?_append_right (by omega), List.getElem?_drop]
      congr 1
      omega

/-! ## The calls -/

inductive Event (α : Type)
  | read (pos : Nat) (ret : Int) (data : List α)
  | write (pos : Nat) (ret : Int) (data : List α)

/-- The trace has the newest event first. -/
structure File (α : Type) where
  content : List α
  positions : List Nat
  trace : List (Event α)

def File.empty : File α := ⟨[], [], []⟩

inductive Call (α : Type)
  | open
  | close_all
  | read (i count : Nat)
  | write (i : Nat) (data : List α)

def File.step (limit : Nat) (f : File α) : Call α → Except Unit (File α)
  | .open => .ok { f with positions := f.positions ++ [0] }
  | .close_all => .ok { f with positions := [] }
  | .read i count =>
    match f.positions[i]? with
    | none => .error ()
    | some pos =>
      if pos + count ≤ limit then
        let data := (f.content.drop pos).take count
        .ok ⟨f.content, f.positions.set i (pos + data.length), .read pos data.length data :: f.trace⟩
      else .error ()
  | .write i data =>
    match f.positions[i]? with
    | none => .error ()
    | some pos =>
      if pos + data.length ≤ limit then
        .ok ⟨overwrite f.content pos data, f.positions.set i (pos + data.length),
          .write pos data.length data :: f.trace⟩
      else .error ()

/-! ## Where the content comes from -/

def lastWrite : List (Event α) → Nat → Option α
  | [], _ => none
  | .read _ _ _ :: trace, i => lastWrite trace i
  | .write pos _ data :: trace, i =>
    if pos ≤ i ∧ i < pos + data.length then data[i - pos]? else lastWrite trace i

def ReadsWritten : List (Event α) → Prop
  | [] => True
  | .read pos _ data :: trace => (∀ j < data.length, data[j]? = lastWrite trace (pos + j)) ∧
    ReadsWritten trace
  | .write _ _ _ :: trace => ReadsWritten trace

structure File.Sane (f : File α) : Prop where
  positions : ∀ p ∈ f.positions, p ≤ f.content.length
  content : ∀ i, f.content[i]? = lastWrite f.trace i
  reads : ReadsWritten f.trace

variable {f f' : File α} {limit : Nat}

theorem sane_empty : (File.empty : File α).Sane :=
  ⟨by simp [File.empty], by simp [File.empty, lastWrite], trivial⟩

theorem sane_step {c : Call α} (h : f.Sane) (hstep : f.step limit c = .ok f') : f'.Sane := by
  unfold File.step at hstep
  rcases c with _ | _ | ⟨i, count⟩ | ⟨i, data⟩
  · cases hstep
    refine ⟨?_, h.content, h.reads⟩
    intro p hp
    rcases List.mem_append.mp hp with hp | hp
    · exact h.positions p hp
    · rw [List.mem_singleton.mp hp]
      exact Nat.zero_le _
  · cases hstep
    exact ⟨by simp, h.content, h.reads⟩
  · dsimp only at hstep
    split at hstep
    · cases hstep
    · rename_i pos hpos
      have hle := h.positions pos (List.mem_of_getElem? hpos)
      split_ifs at hstep
      cases hstep
      refine ⟨?_, h.content, ?_, h.reads⟩
      · intro p hp
        rcases List.mem_or_eq_of_mem_set hp with hp | rfl
        · exact h.positions p hp
        · simp only [List.length_take, List.length_drop]
          omega
      · intro j hj
        rw [List.length_take] at hj
        rw [← h.content, List.getElem?_take_of_lt (by omega), List.getElem?_drop]
  · dsimp only at hstep
    split at hstep
    · cases hstep
    · rename_i pos hpos
      have hle := h.positions pos (List.mem_of_getElem? hpos)
      split_ifs at hstep
      cases hstep
      refine ⟨?_, ?_, h.reads⟩
      · intro p hp
        rw [length_overwrite _ hle]
        rcases List.mem_or_eq_of_mem_set hp with hp | rfl
        · have := h.positions p hp
          omega
        · omega
      · intro j
        rw [getElem?_overwrite hle, lastWrite, h.content]

end Relis.ByteFile
