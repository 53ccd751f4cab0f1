import Mathlib

/-!
# The pattern of raw shopper ids

`"shopper_id"\s*:\s*[0-9]`, which `scripts/acceptance_checks.py` searches for in the text
of the bronze values. What `\s` stands for beyond the space is the engine's; it has no
printable character of ASCII but the space.
-/

namespace PaymentsPlatform.Acceptance

/-- `\s` of the engine. -/
structure SpaceClass where
  mem : Char → Bool
  space : mem ' ' = true
  graphic : ∀ c, '!' ≤ c → c ≤ '~' → mem c = false

/-- The part of the pattern in front of the colon. -/
def quotedShopperId : List Char := "\"shopper_id\"".toList

variable (ws : SpaceClass)

/-- A match of `\s*[0-9]` at the start of the text. -/
def digitAt (text : List Char) : Bool :=
  match text.dropWhile ws.mem with
  | c :: _ => c.isDigit
  | [] => false

/-- A match of `\s*:\s*[0-9]` at the start of the text. -/
def colonAt (text : List Char) : Bool :=
  match text.dropWhile ws.mem with
  | c :: rest => c == ':' && digitAt ws rest
  | [] => false

/-- A match of the pattern at the start of the text. -/
def rawIdAt (text : List Char) : Bool :=
  quotedShopperId.isPrefixOf text && colonAt ws (text.drop quotedShopperId.length)

/-- `regexp_like`: a match anywhere in the text. -/
def hasRawId (text : List Char) : Bool := text.tails.any (rawIdAt ws)

variable {ws} {text : List Char}

theorem SpaceClass.not_mem_of_graphic {c : Char} (ws : SpaceClass)
    (graphic : ('!' ≤ c ∧ c ≤ '~')) : ws.mem c = false := ws.graphic c graphic.1 graphic.2

/-- Behind white space, a character that is none is found. -/
theorem dropWhile_append {spaces rest : List Char} {c : Char} {p : Char → Bool}
    (hspaces : ∀ s ∈ spaces, p s = true) (hc : p c = false) :
    (spaces ++ c :: rest).dropWhile p = c :: rest := by
  rw [List.dropWhile_append_of_pos hspaces, List.dropWhile_cons_of_neg (by simp [hc])]

/-- What is found lies behind white space. -/
theorem dropWhile_eq_cons {rest : List Char} {c : Char} {p : Char → Bool}
    (h : text.dropWhile p = c :: rest) :
    ∃ spaces, text = spaces ++ c :: rest ∧ ∀ s ∈ spaces, p s = true :=
  ⟨text.takeWhile p, by rw [← h, List.takeWhile_append_dropWhile],
    fun _ hs => List.mem_takeWhile_imp hs⟩

theorem digit_graphic {d : Char} (hd : d.isDigit = true) : '!' ≤ d ∧ d ≤ '~' := by
  rw [Char.isDigit, Bool.and_eq_true, decide_eq_true_eq, decide_eq_true_eq] at hd
  exact ⟨le_trans (by decide) hd.1, le_trans hd.2 (by decide)⟩

theorem digitAt_iff : digitAt ws text = true ↔
    ∃ spaces d rest, text = spaces ++ d :: rest ∧ (∀ s ∈ spaces, ws.mem s = true) ∧
      d.isDigit = true := by
  rw [digitAt]
  constructor
  · intro h
    split at h
    · rename_i c rest hdrop
      obtain ⟨spaces, htext, hspaces⟩ := dropWhile_eq_cons hdrop
      exact ⟨spaces, c, rest, htext, hspaces, h⟩
    · cases h
  · rintro ⟨spaces, d, rest, rfl, hspaces, hd⟩
    rw [dropWhile_append hspaces (ws.not_mem_of_graphic (digit_graphic hd))]
    exact hd

theorem colonAt_iff : colonAt ws text = true ↔
    ∃ spaces rest, text = spaces ++ ':' :: rest ∧ (∀ s ∈ spaces, ws.mem s = true) ∧
      digitAt ws rest = true := by
  rw [colonAt]
  constructor
  · intro h
    split at h
    · rename_i c rest hdrop
      obtain ⟨spaces, htext, hspaces⟩ := dropWhile_eq_cons hdrop
      rw [Bool.and_eq_true, beq_iff_eq] at h
      obtain ⟨rfl, hdigit⟩ := h
      exact ⟨spaces, rest, htext, hspaces, hdigit⟩
    · cases h
  · rintro ⟨spaces, rest, rfl, hspaces, hdigit⟩
    rw [dropWhile_append hspaces (ws.not_mem_of_graphic (by decide))]
    exact hdigit

theorem rawIdAt_iff : rawIdAt ws text = true ↔
    ∃ after, text = quotedShopperId ++ after ∧ colonAt ws after = true := by
  rw [rawIdAt, Bool.and_eq_true, List.isPrefixOf_iff_prefix]
  constructor
  · rintro ⟨⟨after, rfl⟩, hcolon⟩
    rw [List.drop_left] at hcolon
    exact ⟨after, rfl, hcolon⟩
  · rintro ⟨after, rfl, hcolon⟩
    rw [List.drop_left]
    exact ⟨List.prefix_append _ _, hcolon⟩

/-- A match, by its parts. -/
theorem hasRawId_iff : hasRawId ws text = true ↔
    ∃ before spaces spaces' d after,
      text = before ++ (quotedShopperId ++ (spaces ++ ':' :: (spaces' ++ d :: after))) ∧
      (∀ s ∈ spaces, ws.mem s = true) ∧ (∀ s ∈ spaces', ws.mem s = true) ∧ d.isDigit = true := by
  rw [hasRawId, List.any_eq_true]
  constructor
  · rintro ⟨suffix, hsuffix, hmatch⟩
    obtain ⟨before, rfl⟩ := (List.mem_tails _ _).mp hsuffix
    obtain ⟨rest, rfl, hcolon⟩ := rawIdAt_iff.mp hmatch
    obtain ⟨spaces, value, rfl, hspaces, hdigit⟩ := colonAt_iff.mp hcolon
    obtain ⟨spaces', d, after, rfl, hspaces', hd⟩ := digitAt_iff.mp hdigit
    exact ⟨before, spaces, spaces', d, after, rfl, hspaces, hspaces', hd⟩
  · rintro ⟨before, spaces, spaces', d, after, rfl, hspaces, hspaces', hd⟩
    have hdigit := digitAt_iff.mpr ⟨spaces', d, after, rfl, hspaces', hd⟩
    have hcolon := colonAt_iff.mpr ⟨spaces, _, rfl, hspaces, hdigit⟩
    exact ⟨_, (List.mem_tails _ _).mpr (List.suffix_append _ _),
      rawIdAt_iff.mpr ⟨_, rfl, hcolon⟩⟩

theorem hasRawId_cons (ws : SpaceClass) (c : Char) (text : List Char) :
    hasRawId ws (c :: text) = (rawIdAt ws (c :: text) || hasRawId ws text) := by
  rw [hasRawId, List.tails_cons, List.any_cons]
  rfl

/-- No match starts in front of a text without a quote. -/
theorem hasRawId_append {plain : List Char} (hplain : '"' ∉ plain) :
    hasRawId ws (plain ++ text) = hasRawId ws text := by
  induction plain with
  | nil => rfl
  | cons c plain ih =>
      have hc : c ≠ '"' := fun h => hplain (List.mem_cons.mpr (.inl h.symm))
      have none : rawIdAt ws (c :: (plain ++ text)) = false := by
        rw [← Bool.not_eq_true, rawIdAt_iff]
        rintro ⟨after, h, _⟩
        exact hc (List.cons.inj h).1
      rw [List.cons_append, hasRawId_cons, none, Bool.false_or]
      exact ih fun h => hplain (List.mem_cons_of_mem _ h)

end PaymentsPlatform.Acceptance
