import Mathlib

/-!
# Lines

A text of lines, each with its end, and the lines of such a text. The lines come back
when none of them has an end inside (`splitLines_joinLines`).
-/

namespace PaymentsPlatform.Text

variable {α β : Type*} {newline c : α} {lines : List (List α)}

/-- Every line with an end. -/
def joinLines (newline : α) (lines : List (List α)) : List α :=
  [newline].intercalate lines ++ [newline]

/-- What is in front of each end of a line. -/
def splitLines [DecidableEq α] (newline : α) (text : List α) : List (List α) :=
  (text.splitOn newline).dropLast

theorem joinLines_singleton (newline : α) (line : List α) :
    joinLines newline [line] = line ++ [newline] := by
  rw [joinLines, List.intercalate_singleton]

theorem joinLines_cons (newline : α) (line : List α) (nonempty : lines ≠ []) :
    joinLines newline (line :: lines) = line ++ newline :: joinLines newline lines := by
  rw [joinLines, List.intercalate_cons_of_ne_nil nonempty, List.append_assoc, List.append_assoc]
  rfl

theorem mem_joinLines (h : c ∈ joinLines newline lines) :
    c = newline ∨ ∃ line ∈ lines, c ∈ line := by
  induction lines with
  | nil => exact .inl (List.mem_singleton.mp h)
  | cons line lines ih =>
      by_cases last : lines = []
      · rw [last, joinLines_singleton, List.mem_append, List.mem_singleton] at h
        exact h.elim (fun h => .inr ⟨line, List.mem_cons_self, h⟩) .inl
      · rw [joinLines_cons _ _ last, List.mem_append, List.mem_cons] at h
        rcases h with h | h | h
        · exact .inr ⟨line, List.mem_cons_self, h⟩
        · exact .inl h
        · rcases ih h with h | ⟨l, hl, hc⟩
          · exact .inl h
          · exact .inr ⟨l, List.mem_cons_of_mem _ hl, hc⟩

/-- Lines without an end inside are split again. -/
theorem splitLines_joinLines [DecidableEq α] (nonempty : lines ≠ [])
    (clean : ∀ line ∈ lines, newline ∉ line) :
    splitLines newline (joinLines newline lines) = lines := by
  have split : (joinLines newline lines).splitOn newline = lines ++ [[]] := by
    induction lines with
    | nil => exact absurd rfl nonempty
    | cons line lines ih =>
        obtain ⟨hline, clean⟩ := List.forall_mem_cons.mp clean
        by_cases last : lines = []
        · rw [last, joinLines_singleton, List.splitOn_append_cons_self_of_not_mem hline,
            List.splitOn_nil]
          rfl
        · rw [joinLines_cons _ _ last, List.splitOn_append_cons_self_of_not_mem hline,
            ih last clean]
          rfl
  rw [splitLines, split, List.dropLast_concat]

theorem splitLines_nil [DecidableEq α] : splitLines newline [] = [] := by
  rw [splitLines, List.splitOn_nil]
  rfl

theorem map_joinLines (f : α → β) (newline : α) (nonempty : lines ≠ []) :
    (joinLines newline lines).map f = joinLines (f newline) (lines.map (List.map f)) := by
  induction lines with
  | nil => exact absurd rfl nonempty
  | cons line lines ih =>
      by_cases last : lines = []
      · rw [last, List.map_singleton, joinLines_singleton, joinLines_singleton, List.map_append]
        rfl
      · rw [List.map_cons, joinLines_cons _ _ last,
          joinLines_cons _ _ (mt List.map_eq_nil_iff.mp last), List.map_append, List.map_cons,
          ih last]

end PaymentsPlatform.Text
