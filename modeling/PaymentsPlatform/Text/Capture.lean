import Mathlib

/-!
# Capturing the text after a marker

`captureAfter marker stop` is the group of the regular expression `marker([^stop]+)`
in its first match: the leftmost occurrence of the marker that is followed by at
least one character outside the class, and the longest run of such characters.
-/

namespace PaymentsPlatform.Text

variable {α : Type*} [DecidableEq α] {marker : List α} {stop : α → Bool} {a b x : α}

/-- The captured group of the first match, if there is one. -/
def captureAfter (marker : List α) (stop : α → Bool) : List α → Option (List α)
  | [] => none
  | x :: xs =>
      if marker <+: x :: xs ∧
          ((x :: xs).drop marker.length).takeWhile (fun y => !stop y) ≠ [] then
        some (((x :: xs).drop marker.length).takeWhile fun y => !stop y)
      else captureAfter marker stop xs

/-- Text that lacks the second character of the marker is skipped. -/
theorem captureAfter_skip (rest before after : List α) (absent : b ∉ before)
    (next : after.head? ≠ some b) :
    captureAfter (a :: b :: rest) stop (before ++ after) =
      captureAfter (a :: b :: rest) stop after := by
  induction before with
  | nil => rfl
  | cons x before ih =>
      have hmem : b ∉ before := fun h => absent (List.mem_cons_of_mem _ h)
      have elsewhere : ¬a :: b :: rest <+: x :: (before ++ after) := by
        intro h
        have hsecond := (List.cons_prefix_cons.mp h).2
        cases before with
        | nil =>
            obtain ⟨tail, htail⟩ := hsecond
            exact next (by rw [← List.nil_append after, ← htail]; rfl)
        | cons y before =>
            have heq := (List.cons_prefix_cons.mp hsecond).1
            exact hmem (heq ▸ List.mem_cons_self)
      rw [List.cons_append, captureAfter, if_neg fun h => elsewhere h.1, ih hmem]

/-- At the marker, everything up to the next stop is captured. -/
theorem captureAfter_marker (group after : List α) (hmarker : marker ≠ []) (hgroup : group ≠ [])
    (clean : ∀ y ∈ group, stop y = false) (hstop : stop x = true) :
    captureAfter marker stop (marker ++ (group ++ x :: after)) = some group := by
  have captured : (group ++ x :: after).takeWhile (fun y => !stop y) = group := by
    rw [List.takeWhile_append_of_pos (fun y hy => by simp [clean y hy]),
      List.takeWhile_cons_of_neg (by simp [hstop]), List.append_nil]
  obtain ⟨m, marker, rfl⟩ := List.exists_cons_of_ne_nil hmarker
  have tail : ((m :: marker) ++ (group ++ x :: after)).drop (m :: marker).length =
      group ++ x :: after := List.drop_left
  rw [List.cons_append, captureAfter, ← List.cons_append, tail, captured,
    if_pos ⟨List.prefix_append _ _, hgroup⟩]

end PaymentsPlatform.Text
