import Mathlib

/-!
# Rewriting runs of characters

`replaceRuns p c` is a regular-expression substitution of the shape `re.sub("[p]+",
c, text)`: every maximal run of elements of the class `p` becomes one `c`.
`strip` drops a class from both ends.
-/

namespace PaymentsPlatform.Text

variable {α : Type*} {p : α → Bool} {c x : α} {xs : List α}

/-- Scan with a flag that tells whether the previous element was in the class. -/
def replaceRunsFrom (p : α → Bool) (c : α) : Bool → List α → List α
  | _, [] => []
  | inRun, x :: xs =>
      if p x then
        if inRun then replaceRunsFrom p c true xs else c :: replaceRunsFrom p c true xs
      else x :: replaceRunsFrom p c false xs

/-- Replace every maximal run of the class `p` by one `c`. -/
def replaceRuns (p : α → Bool) (c : α) (xs : List α) : List α := replaceRunsFrom p c false xs

/-- Drop a class from both ends. -/
def strip (p : α → Bool) (xs : List α) : List α := (xs.dropWhile p).rdropWhile p

theorem mem_replaceRunsFrom {inRun : Bool} (h : x ∈ replaceRunsFrom p c inRun xs) :
    x = c ∨ x ∈ xs ∧ p x = false := by
  induction xs generalizing inRun with
  | nil => cases h
  | cons y ys ih =>
      rw [replaceRunsFrom] at h
      cases hp : p y with
      | true =>
          cases inRun with
          | true =>
              simp only [hp, if_true] at h
              exact (ih h).imp id fun ⟨hmem, hx⟩ => ⟨List.mem_cons_of_mem _ hmem, hx⟩
          | false =>
              simp only [hp, if_true, Bool.false_eq_true, if_false, List.mem_cons] at h
              rcases h with rfl | h
              · exact .inl rfl
              · exact (ih h).imp id fun ⟨hmem, hx⟩ => ⟨List.mem_cons_of_mem _ hmem, hx⟩
      | false =>
          simp only [hp, Bool.false_eq_true, if_false, List.mem_cons] at h
          rcases h with rfl | h
          · exact .inr ⟨List.mem_cons_self, hp⟩
          · exact (ih h).imp id fun ⟨hmem, hx⟩ => ⟨List.mem_cons_of_mem _ hmem, hx⟩

/-- Only `c` and the elements outside the class are left. -/
theorem mem_replaceRuns (h : x ∈ replaceRuns p c xs) : x = c ∨ x ∈ xs ∧ p x = false :=
  mem_replaceRunsFrom h

theorem mem_of_mem_strip (h : x ∈ strip p xs) : x ∈ xs :=
  (List.dropWhile_sublist p).subset ((List.rdropWhile_prefix p _).subset h)

/-- What is dropped from the ends is in the class. -/
theorem exists_strip (p : α → Bool) (xs : List α) : ∃ front back,
    xs = front ++ (strip p xs ++ back) ∧ (∀ x ∈ front, p x = true) ∧ ∀ x ∈ back, p x = true := by
  refine ⟨xs.takeWhile p, (xs.dropWhile p).rtakeWhile p, ?_, ?_, ?_⟩
  · rw [strip, List.rdropWhile_append_rtakeWhile, List.takeWhile_append_dropWhile]
  · exact fun x hx => List.mem_takeWhile_imp hx
  · exact fun x hx => List.mem_rtakeWhile_imp hx

/-- A text is in the class, or has a first element outside of it. -/
theorem exists_first_outside (p : α → Bool) (xs : List α) :
    (∀ x ∈ xs, p x = true) ∨
      ∃ front a rest, xs = front ++ a :: rest ∧ (∀ x ∈ front, p x = true) ∧ p a = false := by
  induction xs with
  | nil => exact .inl (by simp)
  | cons a xs ih =>
      cases ha : p a with
      | false => exact .inr ⟨[], a, xs, rfl, by simp, ha⟩
      | true =>
          rcases ih with all | ⟨front, b, rest, rfl, hfront, hb⟩
          · exact .inl (List.forall_mem_cons.mpr ⟨ha, all⟩)
          · exact .inr ⟨a :: front, b, rest, rfl, List.forall_mem_cons.mpr ⟨ha, hfront⟩, hb⟩

theorem strip_eq_nil (all : ∀ x ∈ xs, p x = true) : strip p xs = [] := by
  rw [strip, List.dropWhile_eq_nil_iff.mpr all]
  rfl

theorem rdropWhile_cons (ha : p x = false) (xs : List α) :
    (x :: xs).rdropWhile p = x :: xs.rdropWhile p := by
  rw [List.rdropWhile, List.reverse_cons, List.dropWhile_append]
  split
  · rename_i empty
    rw [List.rdropWhile, List.isEmpty_iff.mp empty, List.dropWhile_cons_of_neg (by rw [ha]; simp)]
    rfl
  · rw [List.reverse_append]
    rfl

theorem strip_append_cons {front : List α} (hfront : ∀ x ∈ front, p x = true)
    (ha : p x = false) (rest : List α) :
    strip p (front ++ x :: rest) = x :: rest.rdropWhile p := by
  rw [strip, List.dropWhile_append_of_pos hfront, List.dropWhile_cons_of_neg (by rw [ha]; simp),
    rdropWhile_cons ha]

theorem strip_map {β : Type*} (f : β → α) (p : α → Bool) (xs : List β) :
    strip p (xs.map f) = (strip (p ∘ f) xs).map f := by
  rw [strip, strip, List.dropWhile_map, List.rdropWhile, List.rdropWhile, ← List.map_reverse,
    List.dropWhile_map, List.map_reverse]

end PaymentsPlatform.Text
