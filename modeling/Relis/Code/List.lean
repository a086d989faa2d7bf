import Relis.Code.PageAlloc

/-!
# `include/relis/list.h`

The functions are written over any state that stores nodes. A node is named by
its address, and a link is a node or null.
-/

namespace Relis.Code

class ListHeap (σ : Type) (α : outParam Type) where
  next : σ → α → Option α
  prev : σ → α → Option α
  set_next : σ → α → Option α → σ
  set_prev : σ → α → Option α → σ

export ListHeap (next prev set_next set_prev)

variable {σ α β : Type} [ListHeap σ α]

def deref (link : Option α) : Except Halt α :=
  match link with
  | some a => .ok a
  | none => .error .bad_link

def INIT_LIST_HEAD (s : σ) (list : α) : σ :=
  let s := set_next s list (some list)
  set_prev s list (some list)

def list_add (s : σ) (new head : α) : Except Halt σ := do
  let s := set_next s new (next s head)
  let s := set_prev s new (some head)
  let after ← deref (next s head)
  let s := set_prev s after (some new)
  return set_next s head (some new)

def list_add_tail (s : σ) (new head : α) : Except Halt σ := do
  let s := set_prev s new (prev s head)
  let s := set_next s new (some head)
  let before ← deref (prev s head)
  let s := set_next s before (some new)
  return set_prev s head (some new)

def list_del (s : σ) (entry : α) : Except Halt σ := do
  let before ← deref (prev s entry)
  let s := set_next s before (next s entry)
  let after ← deref (next s entry)
  let s := set_prev s after (prev s entry)
  let s := set_next s entry none
  return set_prev s entry none

def list_empty [DecidableEq α] (s : σ) (head : α) : Bool := next s head == some head

/-- `list_for_each(pos, head)` from `pos` on, with a body that may leave the loop
with a value. The fuel bounds the number of nodes. -/
def list_for_each_from [DecidableEq α] (s : σ) (head : α) (body : α → Except Halt (Option β)) :
    Nat → α → Except Halt (Option β)
  | 0, _ => .error .endless
  | fuel + 1, pos =>
    if pos = head then .ok none
    else do
      match ← body pos with
      | some b => return some b
      | none => list_for_each_from s head body fuel (← deref (next s pos))

def list_for_each [DecidableEq α] (fuel : Nat) (s : σ) (head : α)
    (body : α → Except Halt (Option β)) : Except Halt (Option β) := do
  list_for_each_from s head body fuel (← deref (next s head))

/-- `list_for_each_entry_safe(pos, n, head, member)` from `pos` and `n` on, with the nodes it goes to.
The body may write the list. -/
def list_for_each_entry_safe_from [DecidableEq α] (head : α) (body : σ → α → Except Halt σ) :
    Nat → σ → α → α → Except Halt (σ × List α)
  | 0, _, _, _ => .error .endless
  | fuel + 1, s, pos, n =>
    if pos = head then .ok (s, [])
    else do
      let s ← body s pos
      -- `pos = n, n = list_next_entry(n, member)`, where `n` may be the head
      let (s, visited) ← list_for_each_entry_safe_from head body fuel s n (← deref (next s n))
      return (s, pos :: visited)

def list_for_each_entry_safe [DecidableEq α] (fuel : Nat) (s : σ) (head : α)
    (body : σ → α → Except Halt σ) : Except Halt (σ × List α) := do
  let pos ← deref (next s head)
  list_for_each_entry_safe_from head body fuel s pos (← deref (next s pos))

end Relis.Code
