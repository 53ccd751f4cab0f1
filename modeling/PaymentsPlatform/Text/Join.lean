import Mathlib

/-!
# Joining texts with a separator

`join sep parts` is `sep.join(parts)`. A first part without the separator can be read
back from the joined text; later parts only if the ones before them can.
-/

namespace PaymentsPlatform.Text

variable {sep part part' : String} {parts parts' : List String} {c : Char}

/-- The parts with the separator between them. -/
def join (sep : String) : List String → String
  | [] => ""
  | [part] => part
  | part :: next :: parts => part ++ sep ++ join sep (next :: parts)

theorem join_cons (nonempty : parts ≠ []) :
    join sep (part :: parts) = part ++ sep ++ join sep parts := by
  obtain ⟨next, parts, rfl⟩ := List.exists_cons_of_ne_nil nonempty
  rfl

/-- Everything in front of a part, and a rest behind it. -/
theorem join_append_cons (sep part : String) (before after : List String) : ∃ rest,
    (join sep (before ++ part :: after)).toList =
      before.flatMap (fun b => b.toList ++ sep.toList) ++ (part.toList ++ rest) := by
  induction before with
  | nil =>
      cases after with
      | nil => exact ⟨[], by simp [join]⟩
      | cons next after => exact ⟨_, by rw [List.nil_append, join_cons (by simp)]; simp; rfl⟩
  | cons b before ih =>
      obtain ⟨rest, hrest⟩ := ih
      refine ⟨rest, ?_⟩
      rw [List.cons_append, join_cons (by simp), String.toList_append, String.toList_append, hrest]
      simp

theorem not_mem_join (hsep : c ∉ sep.toList) (hparts : ∀ part ∈ parts, c ∉ part.toList) :
    c ∉ (join sep parts).toList := by
  induction parts with
  | nil => simp [join]
  | cons part parts ih =>
      have hpart := hparts part List.mem_cons_self
      have hrest := ih fun p hp => hparts p (List.mem_cons_of_mem _ hp)
      cases parts with
      | nil => exact hpart
      | cons next parts => simp [join_cons, hpart, hsep, hrest]

/-- Texts are split at the first separator. -/
theorem append_sep_inj {a b s t : String} (hsep : sep.toList = [c]) (clean : c ∉ a.toList)
    (clean' : c ∉ b.toList) : a ++ sep ++ s = b ++ sep ++ t ↔ a = b ∧ s = t := by
  constructor
  · intro h
    have chars := congrArg String.toList h
    simp only [String.toList_append, hsep, List.append_assoc, List.singleton_append] at chars
    have first : ∀ zs u : List Char, c ∉ zs → (zs ++ c :: u).takeWhile (fun x => x != c) = zs := by
      intro zs u absent
      rw [List.takeWhile_append_of_pos (fun x hx => by simpa using ne_of_mem_of_not_mem hx absent),
        List.takeWhile_cons_of_neg (by simp), List.append_nil]
    have same : a.toList = b.toList := by
      rw [← first a.toList s.toList clean, chars, first b.toList t.toList clean']
    rw [same, List.append_cancel_left_eq] at chars
    exact ⟨String.toList_inj.mp same, String.toList_inj.mp (List.cons.inj chars).2⟩
  · rintro ⟨rfl, rfl⟩
    rfl

/-- A first part that lacks the separator is determined by the joined text. -/
theorem join_cons_inj (hsep : sep.toList = [c]) (nonempty : parts ≠ []) (nonempty' : parts' ≠ [])
    (clean : c ∉ part.toList) (clean' : c ∉ part'.toList) :
    join sep (part :: parts) = join sep (part' :: parts') ↔
      part = part' ∧ join sep parts = join sep parts' := by
  rw [join_cons nonempty, join_cons nonempty', append_sep_inj hsep clean clean']

end PaymentsPlatform.Text
