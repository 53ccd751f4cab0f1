import Mathlib

/-!
# `LIKE`

A pattern is matched against a whole text: `%` stands for any sequence of characters, `_`
for any one, and every other character for itself. There is no escape character.
`like_contains` is the pattern that looks for a piece without `%` anywhere in a text.
-/

namespace PaymentsPlatform.Sql

variable {p c : Char} {plain pattern rest part text : List Char}

/-- A character of a pattern other than `%` admits a character of the text. -/
def Admits (p c : Char) : Prop := p = '_' ∨ p = c

instance Admits.decidable (p c : Char) : Decidable (Admits p c) :=
  inferInstanceAs (Decidable (p = '_' ∨ p = c))

/-- Whether a text matches a pattern as a whole. -/
def like : List Char → List Char → Bool
  | [], text => text.isEmpty
  | p :: pattern, text =>
      if p = '%' then text.tails.any (like pattern)
      else text.head?.any (fun c => decide (Admits p c)) && like pattern text.tail

/-- A text of the length of a pattern without `%`, admitted character by character. -/
abbrev Fits (plain text : List Char) : Prop := List.Forall₂ Admits plain text

theorem like_percent :
    like ('%' :: pattern) text = true ↔ ∃ before after, before ++ after = text ∧
      like pattern after = true := by
  rw [like, if_pos rfl, List.any_eq_true]
  simp only [List.mem_tails, List.IsSuffix]
  tauto

@[simp] theorem like_nil : like [] text = true ↔ text = [] := by
  rw [like, List.isEmpty_iff]

/-- `%` at the end of a pattern admits everything. -/
theorem like_percent_nil (text : List Char) : like ['%'] text = true :=
  like_percent.mpr ⟨text, [], List.append_nil text, like_nil.mpr rfl⟩

theorem like_cons (literal : p ≠ '%') : like (p :: pattern) text = true ↔
    ∃ c after, text = c :: after ∧ Admits p c ∧ like pattern after = true := by
  rw [like, if_neg literal]
  cases text with
  | nil => simp
  | cons c text => simp

/-- The characters up to a `%` fit the beginning of the text. -/
theorem like_append (literal : '%' ∉ plain) : like (plain ++ rest) text = true ↔
    ∃ part after, text = part ++ after ∧ Fits plain part ∧ like rest after = true := by
  induction plain generalizing text with
  | nil =>
      constructor
      · exact fun h => ⟨[], text, rfl, .nil, h⟩
      · rintro ⟨part, after, rfl, fits, h⟩
        cases fits
        exact h
  | cons p plain ih =>
      obtain ⟨hp, literal⟩ := List.ne_and_not_mem_of_not_mem_cons literal
      rw [List.cons_append, like_cons (Ne.symm hp)]
      constructor
      · rintro ⟨c, after, rfl, admits, h⟩
        obtain ⟨part, after, rfl, fits, h⟩ := (ih literal).mp h
        exact ⟨c :: part, after, rfl, .cons admits fits, h⟩
      · rintro ⟨part, after, rfl, fits, h⟩
        cases fits with
        | cons admits fits =>
            exact ⟨_, _, rfl, admits, (ih literal).mpr ⟨_, after, rfl, fits, h⟩⟩

/-- A piece without `%` is found anywhere in the text. -/
theorem like_contains (literal : '%' ∉ plain) :
    like ('%' :: (plain ++ ['%'])) text = true ↔
      ∃ before part after, text = before ++ (part ++ after) ∧ Fits plain part := by
  rw [like_percent]
  constructor
  · rintro ⟨before, after, rfl, h⟩
    obtain ⟨part, after, rfl, fits, _⟩ := (like_append literal).mp h
    exact ⟨before, part, after, rfl, fits⟩
  · rintro ⟨before, part, after, rfl, fits⟩
    exact ⟨before, part ++ after, rfl,
      (like_append literal).mpr ⟨part, after, rfl, fits, like_percent_nil after⟩⟩

theorem Fits.append_iff {plain' : List Char} : Fits (plain ++ plain') text ↔
    ∃ part part', text = part ++ part' ∧ Fits plain part ∧ Fits plain' part' := by
  constructor
  · intro fits
    refine ⟨text.take plain.length, text.drop plain.length, by simp, ?_, ?_⟩
    · simpa using List.forall₂_take plain.length fits
    · simpa using List.forall₂_drop plain.length fits
  · rintro ⟨part, part', rfl, fits, fits'⟩
    exact List.rel_append fits fits'

theorem Fits.refl (plain : List Char) : Fits plain plain :=
  List.forall₂_same.mpr fun _ _ => .inr rfl

/-- A piece without `_` fits itself only. -/
theorem Fits.eq_of_literal (literal : '_' ∉ plain) (fits : Fits plain part) : part = plain := by
  induction fits with
  | nil => rfl
  | cons admits _ ih =>
      obtain ⟨hp, literal⟩ := List.ne_and_not_mem_of_not_mem_cons literal
      rcases admits with rfl | rfl
      · exact absurd rfl hp
      · rw [ih literal]

end PaymentsPlatform.Sql
