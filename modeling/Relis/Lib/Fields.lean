import Mathlib.Data.List.Basic

/-!
# The fields of a list

A list is cut at every separator, and the empty pieces are left out.
-/

namespace Relis.Fields

variable {α : Type} [DecidableEq α] {sep : α}

/-- The pieces between the separators that are not empty. -/
def fields (sep : α) (l : List α) : List (List α) := (l.splitOn sep).filter (· ≠ [])

@[simp] theorem fields_nil : fields sep [] = [] := by simp [fields]

theorem fields_of_notMem {l : List α} (h : sep ∉ l) (hne : l ≠ []) : fields sep l = [l] := by
  simp [fields, List.splitOn_eq_singleton h, hne]

theorem fields_append_cons (l l' : List α) :
    fields sep (l ++ sep :: l') = fields sep l ++ fields sep l' := by
  rw [fields, List.splitOn_append_cons_self, List.filter_append]
  rfl

theorem fields_first {l : List α} (h : sep ∉ l) (hne : l ≠ []) (l' : List α) :
    ∃ more rest, fields sep (l ++ l') = (l ++ more) :: rest := by
  induction l' generalizing l with
  | nil => exact ⟨[], [], by simp [fields_of_notMem h hne]⟩
  | cons a l' ih =>
    by_cases ha : a = sep
    · subst ha
      exact ⟨[], fields a l', by rw [fields_append_cons, fields_of_notMem h hne, List.append_nil, List.singleton_append]⟩
    · obtain ⟨more, rest, hmore⟩ := ih (l := l ++ [a]) (by simpa [h] using Ne.symm ha) (by simp)
      refine ⟨a :: more, rest, ?_⟩
      rw [List.append_cons, hmore, List.append_assoc, List.singleton_append]

@[simp] theorem fields_cons_self (l : List α) : fields sep (sep :: l) = fields sep l :=
  fields_append_cons [] l

theorem fields_double (l l' : List α) :
    fields sep (l ++ sep :: sep :: l') = fields sep (l ++ sep :: l') := by
  rw [fields_append_cons, fields_cons_self, fields_append_cons]

theorem fields_concat_self (l : List α) : fields sep (l ++ [sep]) = fields sep l := by
  rw [fields_append_cons, fields_nil, List.append_nil]

end Relis.Fields
