import Mathlib

/-!
# Texts in pieces

What `List.splitOnP` makes of a text, by induction on its cuts: a text is one piece, or a
piece with a cut and a text behind it (`cut_induction`). A part of the text without a cut is
inside one piece, and in a text without repetitions an element tells its piece.
-/

namespace PaymentsPlatform.Text

variable {α β : Type*} {p q : α → Bool} {a b : α} {w xs piece piece' text before rest : List α}

/-- A text is a piece, or one with a cut and a text behind it. -/
theorem cut_induction {P : List α → Prop} (p : α → Bool)
    (last : ∀ xs, (∀ x ∈ xs, p x = false) → P xs)
    (cut : ∀ xs b rest, (∀ x ∈ xs, p x = false) → p b = true → P rest → P (xs ++ b :: rest))
    (text : List α) : P text := by
  have behind : ∀ xs, (∀ x ∈ xs, p x = false) → P (xs ++ text) := by
    induction text with
    | nil =>
        intro xs clean
        rw [List.append_nil]
        exact last xs clean
    | cons a text ih =>
        intro xs clean
        cases ha : p a with
        | true => exact cut xs a text clean ha (ih [] (by simp))
        | false =>
            have clean' : ∀ x ∈ xs ++ [a], p x = false := by
              rw [List.forall_mem_append]
              exact ⟨clean, by simpa using ha⟩
            have next := ih (xs ++ [a]) clean'
            rwa [List.append_assoc] at next
  exact behind [] (by simp)

theorem splitOnP_map (f : α → β) (p : β → Bool) (text : List α) :
    (text.map f).splitOnP p = (text.splitOnP (p ∘ f)).map (List.map f) := by
  induction text with
  | nil => simp
  | cons a text ih =>
      rw [List.map_cons, List.splitOnP_cons_eq_if_modifyHead, List.splitOnP_cons_eq_if_modifyHead,
        ih]
      cases hp : p (f a) with
      | true => simp [hp]
      | false =>
          obtain ⟨piece, pieces, hsplit⟩ :=
            List.exists_cons_of_ne_nil (List.splitOnP_ne_nil (p ∘ f) text)
          simp [hp, hsplit]

theorem splitOnP_congr (same : ∀ x ∈ text, p x = q x) : text.splitOnP p = text.splitOnP q := by
  induction text with
  | nil => simp
  | cons a text ih =>
      obtain ⟨ha, same⟩ := List.forall_mem_cons.mp same
      rw [List.splitOnP_cons_eq_if_modifyHead, List.splitOnP_cons_eq_if_modifyHead, ih same, ha]

/-- The pieces of the pieces. -/
theorem splitOnP_or (p q : α → Bool) (text : List α) :
    text.splitOnP (fun x => p x || q x) = (text.splitOnP p).flatMap (List.splitOnP q) := by
  have inside : ∀ xs : List α, (∀ x ∈ xs, p x = false) →
      xs.splitOnP (fun x => p x || q x) = xs.splitOnP q :=
    fun xs clean => splitOnP_congr fun x hx => by rw [clean x hx, Bool.false_or]
  induction text using cut_induction p with
  | last xs clean => rw [List.splitOnP_eq_singleton clean, inside xs clean, List.flatMap_singleton]
  | cut xs b rest clean cuts ih =>
      have both : (p b || q b) = true := by rw [cuts, Bool.true_or]
      rw [List.splitOnP_append_cons_of_forall_mem clean b cuts,
        List.splitOnP_append_cons (p := fun x => p x || q x) xs rest both, ih, inside xs clean,
        List.flatMap_cons]

theorem infix_of_mem_splitOnP (h : piece ∈ text.splitOnP p) : piece <:+: text := by
  induction text using cut_induction p with
  | last xs clean =>
      rw [List.splitOnP_eq_singleton clean, List.mem_singleton] at h
      rw [h]
  | cut xs b rest clean cuts ih =>
      rw [List.splitOnP_append_cons_of_forall_mem clean b cuts, List.mem_cons] at h
      rcases h with rfl | h
      · exact (List.prefix_append piece (b :: rest)).isInfix
      · exact (ih h).trans ((List.suffix_cons b rest).trans (List.suffix_append _ _)).isInfix

theorem clean_of_mem_splitOnP (h : piece ∈ text.splitOnP p) : ∀ x ∈ piece, p x = false := by
  induction text using cut_induction p with
  | last xs clean =>
      rw [List.splitOnP_eq_singleton clean, List.mem_singleton] at h
      rwa [h]
  | cut xs b rest clean cuts ih =>
      rw [List.splitOnP_append_cons_of_forall_mem clean b cuts, List.mem_cons] at h
      rcases h with rfl | h
      · exact clean
      · exact ih h

/-- A part on one side of an element that is not in it. -/
theorem infix_append_cons (outside : b ∉ w) (h : w <:+: xs ++ b :: rest) :
    w <:+: xs ∨ w <:+: rest := by
  obtain ⟨l, r, split⟩ := h
  rw [List.append_assoc, List.append_eq_append_iff] at split
  rcases split with ⟨as, rfl, split⟩ | ⟨bs, rfl, split⟩
  · rw [List.append_eq_append_iff] at split
    rcases split with ⟨cs, rfl, -⟩ | ⟨cs, rfl, split⟩
    · exact .inl ⟨l, cs, by rw [List.append_assoc]⟩
    · cases cs with
      | nil => exact .inl ⟨l, [], by simp⟩
      | cons c cs =>
          obtain ⟨rfl, -⟩ := List.cons.inj split
          exact absurd (by simp) outside
  · cases bs with
    | nil =>
        cases w with
        | nil => exact .inl (List.nil_infix)
        | cons c w =>
            obtain ⟨rfl, -⟩ := List.cons.inj split
            exact absurd List.mem_cons_self outside
    | cons c bs =>
        obtain ⟨rfl, rfl⟩ := List.cons.inj split
        exact .inr ⟨bs, r, List.append_assoc bs w r⟩

/-- A part without a cut is in a piece. -/
theorem exists_piece (clean : ∀ x ∈ w, p x = false) (h : w <:+: text) :
    ∃ piece ∈ text.splitOnP p, w <:+: piece := by
  induction text using cut_induction p with
  | last xs clean' =>
      rw [List.splitOnP_eq_singleton clean']
      exact ⟨xs, List.mem_cons_self, h⟩
  | cut xs b rest clean' cuts ih =>
      rw [List.splitOnP_append_cons_of_forall_mem clean' b cuts]
      have outside : b ∉ w := fun hb => by
        rw [clean b hb] at cuts
        cases cuts
      rcases infix_append_cons outside h with h | h
      · exact ⟨xs, List.mem_cons_self, h⟩
      · obtain ⟨piece, hpiece, h⟩ := ih h
        exact ⟨piece, List.mem_cons_of_mem _ hpiece, h⟩

/-- In a text without repetitions an element is in one piece. -/
theorem piece_unique (nodup : text.Nodup) (h : piece ∈ text.splitOnP p)
    (h' : piece' ∈ text.splitOnP p) (ha : a ∈ piece) (ha' : a ∈ piece') : piece = piece' := by
  induction text using cut_induction p with
  | last xs clean =>
      rw [List.splitOnP_eq_singleton clean, List.mem_singleton] at h h'
      rw [h, h']
  | cut xs b rest clean cuts ih =>
      rw [List.splitOnP_append_cons_of_forall_mem clean b cuts, List.mem_cons] at h h'
      obtain ⟨-, nodupRest, apart⟩ := List.nodup_append.mp nodup
      have separate : ∀ piece ∈ rest.splitOnP p, a ∈ piece → a ∉ xs := by
        intro piece hpiece hmem hxs
        have hrest := (infix_of_mem_splitOnP hpiece).subset hmem
        exact apart a hxs a (List.mem_cons_of_mem _ hrest) rfl
      rcases h with rfl | h <;> rcases h' with rfl | h'
      · rfl
      · exact absurd ha (separate piece' h' ha')
      · exact absurd ha' (separate piece h ha)
      · exact ih nodupRest.of_cons h h'

/-- A piece of a text behind another one is the end of a piece of both. -/
theorem exists_front (h : piece ∈ rest.splitOnP p) (before : List α) :
    ∃ front, front ++ piece ∈ (before ++ rest).splitOnP p := by
  induction before with
  | nil => exact ⟨[], h⟩
  | cons a before ih =>
      obtain ⟨front, hmem⟩ := ih
      rw [List.cons_append, List.splitOnP_cons_eq_if_modifyHead]
      split
      · exact ⟨front, List.mem_cons_of_mem _ hmem⟩
      · obtain ⟨first, pieces, hsplit⟩ :=
          List.exists_cons_of_ne_nil (List.splitOnP_ne_nil p (before ++ rest))
        rw [hsplit, List.mem_cons] at hmem
        rw [hsplit]
        rcases hmem with rfl | hmem
        · exact ⟨a :: front, List.mem_cons_self⟩
        · exact ⟨front, List.mem_cons_of_mem _ hmem⟩

/-- What stands between two cuts, or at an end of the text, is a piece. -/
theorem mem_splitOnP {line : List α} (clean : ∀ x ∈ line, p x = false)
    (starts : ∀ b ∈ before.getLast?, p b = true) (ends : ∀ b ∈ rest.head?, p b = true) :
    line ∈ (before ++ (line ++ rest)).splitOnP p := by
  have first : line ∈ (line ++ rest).splitOnP p := by
    cases rest with
    | nil =>
        rw [List.append_nil, List.splitOnP_eq_singleton clean]
        exact List.mem_cons_self
    | cons b rest =>
        rw [List.splitOnP_append_cons_of_forall_mem clean b (ends b rfl)]
        exact List.mem_cons_self
  cases before using List.reverseRecOn with
  | nil => exact first
  | append_singleton before b =>
      rw [List.append_assoc, List.singleton_append,
        List.splitOnP_append_cons before (line ++ rest) (starts b (by simp))]
      exact List.mem_append_right _ first

end PaymentsPlatform.Text
