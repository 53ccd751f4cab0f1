import PaymentsPlatform.Json.Loads

/-!
# Reading JSON within a recursion limit

`json.loads` recurses into containers, so that a text that opens too many of them raises a
`RecursionError`, which is no `ValueError`. Within the limit a text is read as without one
(`loadsWithin_cases`).
-/

namespace PaymentsPlatform

namespace Json

/-- The containers that are open. -/
def Scanner.depth (s : Scanner) : Nat :=
  s.stack.length +
    match s.mode with
    | .firstItem | .firstKey | .key _ | .colon _ _ | .string (some _) _ _ => 1
    | _ => 0

/-- What `json.loads` raises, its recursion included. -/
inductive LoadFault where
  | recursion
  | text (e : LoadError)
  deriving DecidableEq, Repr

section Within

variable (float : List Char → PyFloat) (limit : Nat)

/-- One character, where no more containers than the limit may be open behind it. -/
def stepWithin (s : Scanner) (c : CodePoint) : Except LoadFault Scanner :=
  match step float s c with
  | .error e => .error (.text e)
  | .ok t => if limit < t.depth then .error .recursion else .ok t

/-- `json.loads` within a recursion limit. -/
def loadsWithin (text : PyStr) : Except LoadFault Json :=
  if text.head? = some 0xFEFF then .error (.text .decode)
  else
    match text.foldlM (stepWithin float limit) ⟨.value, []⟩ with
    | .error e => .error e
    | .ok s => (finish float s).mapError .text

/-- While the text is read, no more containers than the limit are open. -/
def OpensWithin (text : PyStr) : Prop :=
  ∀ read, read <+: text → ∀ s, scan float ⟨.value, []⟩ read = .ok s → s.depth ≤ limit

end Within

variable {float : List Char → PyFloat} {limit : Nat} {text : PyStr} {s : Scanner}

theorem scanWithin_cases : text.foldlM (stepWithin float limit) s = .error .recursion ∨
    text.foldlM (stepWithin float limit) s = (scan float s text).mapError .text := by
  induction text generalizing s with
  | nil => exact .inr rfl
  | cons c text ih =>
      rw [scan, List.foldlM_cons, List.foldlM_cons, stepWithin]
      cases step float s c with
      | error e => exact .inr rfl
      | ok t =>
          simp only
          split
          · exact .inl rfl
          · exact ih

/-- Within the limit the text is read as without one. -/
theorem loadsWithin_cases (float : List Char → PyFloat) (limit : Nat) (text : PyStr) :
    loadsWithin float limit text = .error .recursion ∨
      loadsWithin float limit text = (loads float text).mapError .text := by
  rw [loadsWithin, loads]
  split
  · exact .inr rfl
  · have scanned : text.foldlM (stepWithin float limit) ⟨.value, []⟩ = .error .recursion ∨
        text.foldlM (stepWithin float limit) ⟨.value, []⟩ =
          (scan float ⟨.value, []⟩ text).mapError .text := scanWithin_cases
    rcases scanned with deep | same
    · rw [deep]
      exact .inl rfl
    · rw [same]
      cases scan float ⟨.value, []⟩ text with
      | error e => exact .inr rfl
      | ok s => exact .inr rfl

theorem loads_of_loadsWithin {v : Json} (h : loadsWithin float limit text = .ok v) :
    loads float text = .ok v := by
  rcases loadsWithin_cases float limit text with deep | same
  · rw [deep] at h
    cases h
  · rw [same] at h
    cases hloads : loads float text with
    | error e =>
        rw [hloads] at h
        cases h
    | ok w =>
        rw [hloads] at h
        cases h
        rfl

theorem loads_of_refused {e : LoadError} (h : loadsWithin float limit text = .error (.text e)) :
    loads float text = .error e := by
  rcases loadsWithin_cases float limit text with deep | same
  · rw [deep] at h
    cases h
  · rw [same] at h
    cases hloads : loads float text with
    | error e' =>
        rw [hloads] at h
        cases h
        rfl
    | ok w =>
        rw [hloads] at h
        cases h

theorem scan_cons_of_step {c : CodePoint} {t : Scanner} (h : step float s c = .ok t)
    (text : PyStr) : scan float s (c :: text) = scan float t text := by
  rw [scan, List.foldlM_cons, h]
  rfl

/-- The machine stops at the limit exactly when the text leads it beyond. -/
theorem scanWithin_eq_recursion (within : s.depth ≤ limit) :
    text.foldlM (stepWithin float limit) s = .error .recursion ↔
      ∃ read, read <+: text ∧ ∃ t, scan float s read = .ok t ∧ limit < t.depth := by
  induction text generalizing s with
  | nil =>
      refine iff_of_false (by rintro ⟨⟩) ?_
      rintro ⟨read, hread, t, ht, deep⟩
      obtain rfl := List.prefix_nil.mp hread
      cases ht
      omega
  | cons c text ih =>
      rw [List.foldlM_cons, stepWithin]
      cases hstep : step float s c with
      | error e =>
          refine iff_of_false (by rintro ⟨⟩) ?_
          rintro ⟨read, hpre, t, ht, deep⟩
          rcases List.prefix_cons_iff.mp hpre with rfl | ⟨read, rfl, _⟩
          · cases ht
            omega
          · rw [scan, List.foldlM_cons, hstep] at ht
            cases ht
      | ok t =>
          simp only
          split
          · rename_i deep
            exact iff_of_true rfl ⟨[c], ⟨text, rfl⟩, t, scan_cons_of_step hstep [], deep⟩
          · rename_i shallow
            refine (ih (Nat.not_lt.mp shallow)).trans ⟨?_, ?_⟩
            · rintro ⟨read, hpre, u, hu, deep⟩
              exact ⟨c :: read, List.cons_prefix_cons.mpr ⟨rfl, hpre⟩, u,
                (scan_cons_of_step hstep read).trans hu, deep⟩
            · rintro ⟨read, hpre, u, hu, deep⟩
              rcases List.prefix_cons_iff.mp hpre with rfl | ⟨read, rfl, htail⟩
              · cases hu
                omega
              · exact ⟨read, htail, u, (scan_cons_of_step hstep read).symm.trans hu, deep⟩

/-- What is read without a limit is read within one exactly when it opens no more
containers. -/
theorem loadsWithin_iff {v : Json} (h : loads float text = .ok v) :
    loadsWithin float limit text = .ok v ↔ OpensWithin float limit text := by
  have start : text.head? ≠ some 0xFEFF := by
    intro mark
    rw [loads, if_pos mark] at h
    cases h
  have raises : loadsWithin float limit text = .error .recursion ↔
      ¬OpensWithin float limit text := by
    have scanned : loadsWithin float limit text = .error .recursion ↔
        text.foldlM (stepWithin float limit) ⟨.value, []⟩ = .error .recursion := by
      rw [loadsWithin, if_neg start]
      cases text.foldlM (stepWithin float limit) ⟨.value, []⟩ with
      | error e => simp
      | ok s => cases hfinish : finish float s <;> simp [hfinish, Except.mapError]
    rw [scanned, scanWithin_eq_recursion (Nat.zero_le limit)]
    simp only [OpensWithin, not_forall, Nat.not_le, exists_prop]
  rcases loadsWithin_cases float limit text with deep | same
  · rw [deep]
    exact iff_of_false (by rintro ⟨⟩) (raises.mp deep)
  · rw [same, h] at raises ⊢
    exact iff_of_true rfl (not_not.mp fun deep => by cases raises.mpr deep)

end Json

end PaymentsPlatform
