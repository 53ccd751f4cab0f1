import PaymentsPlatform.Trino.Script

/-!
# Where the split follows SQL

`split_statements` looks at lines and separators, without the comments and literals around
them. Its statements are those of the script exactly when the cuts and the choice of lines fit
what SQL reads there (`Splittable`). The direction from the condition goes through a chunk line
by line (`chunk_agrees`) and through a script chunk by chunk (`split_agrees`).
-/

namespace PaymentsPlatform.Trino

open Text Text.Lexical

section Conditions

variable {α : Type*} (char : α → Char)

/-- In the literals nothing is cut but at newlines. A line between two cuts is kept when it
starts in a literal, and left out when it starts in a comment. -/
structure LineWise (x : Context) (text : List α) : Prop where
  literals : ∀ a, .lit a ∈ scan (kindOf ∘ char) x text → isCut char a = false
  lines : ∀ before line rest, text = before ++ (line ++ rest) →
    (∀ a ∈ line, isCut char a = false) → (∀ b ∈ before.getLast?, isCut char b = true) →
      (∀ b ∈ rest.head?, isCut char b = true) →
        (after (kindOf ∘ char) x before = .literal → keepLine char line = true) ∧
          (after (kindOf ∘ char) x before = .comment → keepLine char line = false)

/-- No separator in a comment has parts of one statement on both sides. -/
def Whole (symbols : List (Symbol α)) : Prop :=
  ∀ statement ∈ symbols.splitOnP Symbol.isSep, ∀ b c, statement = b ++ .cut :: c →
    ¬(Visible b ∧ Visible c)

/-- The script is one that can be split without a look at its comments and literals. -/
structure Splittable (script : List α) : Prop where
  lineWise : LineWise char .plain script
  whole : Whole (scan (kindOf ∘ char) .plain script)

end Conditions

/-- The context in which a line is read behind those that are kept. -/
def resume : Context → Context
  | .literal => .literal
  | _ => .plain

theorem resume_of_ne_literal {x : Context} (hx : x ≠ .literal) : resume x = .plain := by
  cases x <;> first | rfl | exact absurd rfl hx

theorem resume_of_ne_comment {x : Context} (hx : x ≠ .comment) : resume x = x := by
  cases x <;> first | rfl | exact absurd rfl hx

section Cuts

variable {α : Type*} {char : α → Char} {x : Context} {a b newline : α}
variable {xs line text rest front : List α}

theorem blank_of_isBoundary (h : isBoundary (char b) = true) :
    ((kindOf ∘ char) b).blank = true := by
  rw [Function.comp_apply, blank_kindOf]
  exact isSpace_of_isBoundary h

theorem ne_dash_of_isCut (h : isCut char b = true) : (kindOf ∘ char) b ≠ .dash := by
  intro hdash
  rw [isCut, isSeparator, kindOf_dash_iff.mp hdash] at h
  cases h

theorem isCut_of_isBoundary (h : isBoundary (char b) = true) : isCut char b = true := by
  rw [isCut, h, Bool.or_true]

theorem isCut_of_isSeparator (h : isSeparator char b = true) : isCut char b = true := by
  rw [isCut, h, Bool.true_or]

theorem not_isCut (inside : isSeparator char b = false) (inside' : (isBoundary ∘ char) b = false) :
    isCut char b = false := by
  rw [isCut, inside, Bool.false_or]
  exact inside'

theorem kind_newline (h : char b = '\n') : (kindOf ∘ char) b = .newline := kindOf_newline_iff.mpr h

theorem ne_dash_of_newline (h : char b = '\n') : (kindOf ∘ char) b ≠ .dash := by
  rw [kind_newline h]
  rintro ⟨⟩

theorem blank_of_newline (h : char b = '\n') : ((kindOf ∘ char) b).blank = true := by
  rw [kind_newline h]
  rfl

/-- What holds line by line of a text holds of what is in front of a cut. -/
theorem LineWise.left (h : LineWise char x (xs ++ b :: rest)) (hb : isCut char b = true) :
    LineWise char x xs := by
  constructor
  · intro a ha
    refine h.literals a ?_
    rw [scan_append_cons (ne_dash_of_isCut hb)]
    exact List.mem_append_left _ ha
  · rintro before line after rfl clean starts ends
    refine h.lines before line (after ++ b :: rest) (by simp) clean starts ?_
    cases after with
    | nil => simpa using hb
    | cons c after => exact ends

/-- And of what is behind it, in the context there. -/
theorem LineWise.right (h : LineWise char x (xs ++ b :: rest)) (hb : isCut char b = true) :
    LineWise char (next (kindOf ∘ char) (after (kindOf ∘ char) x xs) b false) rest := by
  constructor
  · intro a ha
    refine h.literals a ?_
    rw [scan_append_cons (ne_dash_of_isCut hb)]
    exact List.mem_append_right _ (List.mem_cons_of_mem _ ha)
  · rintro before line behind rfl clean starts ends
    rw [← after_append_cons (ne_dash_of_isCut hb)]
    refine h.lines (xs ++ b :: before) line behind (by simp) clean ?_ ends
    rw [List.getLast?_append_of_ne_nil _ (List.cons_ne_nil _ _)]
    cases before with
    | nil => simpa using hb
    | cons c before =>
        rw [List.getLast?_cons_cons]
        exact starts

/-- A cut in a literal is a newline. -/
theorem LineWise.cut_of_literal (h : LineWise char x (xs ++ b :: rest))
    (hb : isCut char b = true) (inside : after (kindOf ∘ char) x xs = .literal) :
    char b = '\n' := by
  by_contra other
  have hkind : (kindOf ∘ char) b ≠ .newline := fun h => other (kindOf_newline_iff.mp h)
  have clean := h.literals b (by
    rw [scan_append_cons (ne_dash_of_isCut hb), inside, symbol_literal hkind]
    simp)
  rw [clean] at hb
  cases hb

/-- The first line: where it starts when it is kept, and when it is left out. -/
theorem LineWise.first (h : LineWise char x (line ++ rest))
    (clean : ∀ a ∈ line, isCut char a = false) (ends : ∀ b ∈ rest.head?, isCut char b = true) :
    (keepLine char line = true → x ≠ .comment) ∧ (keepLine char line = false → x ≠ .literal) := by
  obtain ⟨literal, comment⟩ := h.lines [] line rest rfl clean (by simp) ends
  constructor
  · intro kept hx
    rw [comment hx] at kept
    cases kept
  · intro dropped hx
    rw [literal hx] at dropped
    cases dropped

theorem blank_of_isSpace (blank : ∀ a ∈ front, isSpace (char a) = true) :
    ∀ a ∈ front, ((kindOf ∘ char) a).blank = true :=
  fun a ha => (blank_kindOf (char a)).trans (blank a ha)

/-- The rest of a line in a comment. -/
theorem scanFrom_comment (clean : ∀ a ∈ line, isCut char a = false) (behind : Bool) :
    (∀ σ ∈ scanFrom (kindOf ∘ char) behind .comment line, σ = .gap) ∧
      afterFrom (kindOf ∘ char) behind .comment line = .comment := by
  refine scan_comment (fun a ha => ?_) behind
  have inside := clean a ha
  refine ⟨fun h => ?_, fun h => ?_, fun h => ?_⟩
  · rw [isCut, isSeparator, kindOf_separator_iff.mp h] at inside
    cases inside
  · rw [isCut, kindOf_newline_iff.mp h] at inside
    simp [isBoundary] at inside
  · rw [isCut, kindOf_carriageReturn_iff.mp h] at inside
    simp [isBoundary] at inside

/-- A line that is left out, outside of literals. -/
theorem scan_dropped (clean : ∀ a ∈ line, isCut char a = false) (hx : x ≠ .literal)
    (dropped : keepLine char line = false) :
    (∀ σ ∈ scan (kindOf ∘ char) x line, σ = .gap) ∧
      after (kindOf ∘ char) x line ≠ .literal := by
  cases x with
  | literal => exact absurd rfl hx
  | comment =>
      obtain ⟨gaps, context⟩ := scanFrom_comment clean false
      exact ⟨gaps, by rw [after, context]; rintro ⟨⟩⟩
  | plain =>
      rcases exists_first_outside (isSpace ∘ char) line with
        blank | ⟨front, a, rest, rfl, blank, ha⟩
      · obtain ⟨gaps, context⟩ := scanFrom_plain_blank (blank_of_isSpace blank) false
        exact ⟨gaps, by rw [after, context]; rintro ⟨⟩⟩
      · rw [keepLine_append_cons blank ha, Bool.not_eq_false', Bool.and_eq_true] at dropped
        obtain ⟨dash, second⟩ := dropped
        have hkind : (kindOf ∘ char) a = .dash := kindOf_dash_iff.mpr (of_decide_eq_true dash)
        have cleanRest : ∀ b ∈ rest, isCut char b = false := fun b hb =>
          clean b (List.mem_append_right _ (List.mem_cons_of_mem _ hb))
        obtain ⟨gaps, context⟩ := scanFrom_plain_blank (blank_of_isSpace blank)
          (ahead (kindOf ∘ char) false (a :: rest))
        obtain ⟨gaps', context'⟩ := scanFrom_comment cleanRest false
        rw [scan, after, scanFrom_append, afterFrom_append, context, scanFrom, afterFrom, second,
          symbol_dash hkind, next_dash hkind, if_pos rfl, if_pos rfl, context']
        refine ⟨List.forall_mem_append.mpr ⟨gaps, List.forall_mem_cons.mpr ⟨rfl, gaps'⟩⟩, ?_⟩
        rintro ⟨⟩

theorem ne_separator_of_not_isCut (h : isCut char a = false) :
    (kindOf ∘ char) a ≠ .separator := by
  intro hkind
  rw [isCut, isSeparator, kindOf_separator_iff.mp hkind] at h
  cases h

theorem ne_newline_of_not_isCut (h : isCut char a = false) :
    (kindOf ∘ char) a ≠ .newline := by
  intro hkind
  rw [isCut, kindOf_newline_iff.mp hkind] at h
  simp [isBoundary] at h

/-- A line that is kept shows its first element that is no white space, outside of comments. -/
theorem exists_shown (clean : ∀ a ∈ line, isCut char a = false) (hx : x ≠ .comment)
    (kept : keepLine char line = true) :
    ∃ a ∈ line, isSpace (char a) = false ∧
      ∃ σ ∈ scan (kindOf ∘ char) x line, σ.mark = some a := by
  rcases exists_first_outside (isSpace ∘ char) line with blank | ⟨front, a, rest, rfl, blank, ha⟩
  · rw [keepLine_of_blank blank] at kept
    cases kept
  rw [keepLine_append_cons blank ha, Bool.not_eq_true', Bool.and_eq_false_iff] at kept
  have hmem : a ∈ front ++ a :: rest := List.mem_append_right _ List.mem_cons_self
  have blank := blank_of_isSpace blank
  have context : afterFrom (kindOf ∘ char) (ahead (kindOf ∘ char) false (a :: rest)) x front =
      x := by
    cases x with
    | plain => exact (scanFrom_plain_blank blank _).2
    | literal => exact afterFrom_literal_blank blank _
    | comment => exact absurd rfl hx
  refine ⟨a, hmem, ha, symbol (kindOf ∘ char) x a (ahead (kindOf ∘ char) false rest), ?_, ?_⟩
  · rw [scan, scanFrom_append, context, scanFrom]
    exact List.mem_append_right _ List.mem_cons_self
  · cases x with
    | comment => exact absurd rfl hx
    | literal =>
        rw [symbol_literal (ne_newline_of_not_isCut (clean a hmem))]
        rfl
    | plain =>
        have inside : ((kindOf ∘ char) a).blank = false := (blank_kindOf (char a)).trans ha
        refine mark_symbol_plain inside (ne_separator_of_not_isCut (clean a hmem)) fun hkind => ?_
        refine kept.resolve_left ?_
        rw [decide_eq_false_iff_not, not_not]
        exact kindOf_dash_iff.mp hkind

end Cuts

section Chunks

variable {α : Type*} {char : α → Char} {x : Context} {b newline : α}
variable {line rest chunk text : List α}

theorem keptLines_line (clean : ∀ a ∈ line, (isBoundary ∘ char) a = false) :
    keptLines char line = [line].filter (keepLine char) := by
  rw [keptLines, List.splitOnP_eq_singleton clean]

theorem keptLines_cut (clean : ∀ a ∈ line, (isBoundary ∘ char) a = false)
    (hb : (isBoundary ∘ char) b = true) (rest : List α) :
    keptLines char (line ++ b :: rest) =
      [line].filter (keepLine char) ++ keptLines char rest := by
  rw [keptLines, List.splitOnP_append_cons_of_forall_mem clean b hb, ← List.singleton_append,
    List.filter_append]
  rfl

/-- What is read of the lines of a chunk that are kept is what is read of the chunk. -/
structure Agrees (char : α → Char) (newline : α) (x : Context) (chunk : List α) : Prop where
  lexemes : ∀ front, (x ≠ .literal → front = []) →
    lexemes (front ++ scan (kindOf ∘ char) x chunk) =
      lexemes (front ++ scan (kindOf ∘ char) (resume x) (keptText char newline chunk))
  closed : after (kindOf ∘ char) (resume x) (keptText char newline chunk) = .literal →
    after (kindOf ∘ char) x chunk = .literal
  kept : x = .literal → keptLines char chunk ≠ []

/-- Nothing is left of a chunk of one line that is left out. -/
theorem agrees_dropped_line (clean : ∀ a ∈ line, isCut char a = false)
    (inside : ∀ a ∈ line, isBoundary (char a) = false) (hx : x ≠ .literal)
    (dropped : keepLine char line = false) : Agrees char newline x line := by
  have none : keptText char newline line = [] := by
    rw [keptText, keptLines_line inside, List.filter_cons_of_neg (by rw [dropped]; simp)]
    rfl
  obtain ⟨gaps, context⟩ := scan_dropped clean hx dropped
  refine ⟨fun front hfront => ?_, fun h => ?_, fun h => absurd h hx⟩
  · rw [hfront hx, none, List.nil_append, lexemes_of_gaps fun σ hσ => by rw [gaps σ hσ]; rfl]
    exact lexemes_nil.symm
  · rw [none] at h
    cases x <;> first | exact absurd rfl hx | cases h

theorem agrees_kept_line (inside : ∀ a ∈ line, isBoundary (char a) = false)
    (hx : x ≠ .comment) (kept : keepLine char line = true) : Agrees char newline x line := by
  have all : keptLines char line = [line] := by
    rw [keptLines_line inside, List.filter_cons_of_pos kept]
    rfl
  have text : keptText char newline line = line := by
    rw [keptText, all, List.intercalate_singleton]
  have same := resume_of_ne_comment hx
  refine ⟨fun front _ => ?_, fun h => ?_, fun _ => ?_⟩
  · rw [text, same]
  · rwa [text, same] at h
  · rw [all]
    exact List.cons_ne_nil _ _

/-- A line that is left out, in front of a chunk. -/
theorem agrees_dropped_cut (clean : ∀ a ∈ line, isCut char a = false)
    (inside : ∀ a ∈ line, isBoundary (char a) = false) (hb : isBoundary (char b) = true)
    (hx : x ≠ .literal) (dropped : keepLine char line = false)
    (ih : Agrees char newline
      (next (kindOf ∘ char) (after (kindOf ∘ char) x line) b false) rest) :
    Agrees char newline x (line ++ b :: rest) := by
  obtain ⟨gaps, context⟩ := scan_dropped clean hx dropped
  have hdash := ne_dash_of_isCut (isCut_of_isBoundary hb)
  have blank := blank_of_isBoundary hb
  have outside := next_of_blank blank context
  have text : keptText char newline (line ++ b :: rest) = keptText char newline rest := by
    rw [keptText, keptLines_cut inside hb, List.filter_cons_of_neg (by rw [dropped]; simp)]
    rfl
  have plain := (resume_of_ne_literal hx).trans (resume_of_ne_literal outside).symm
  refine ⟨fun front hfront => ?_, fun h => ?_, fun h => absurd h hx⟩
  · have lines := ih.lexemes [] fun _ => rfl
    rw [List.nil_append, List.nil_append] at lines
    rw [hfront hx, List.nil_append, List.nil_append, scan_append_cons hdash,
      symbol_of_blank blank context, lexemes_append_gap rfl,
      lexemes_of_gaps fun σ hσ => by rw [gaps σ hσ]; rfl, List.nil_append, lines, text, plain]
  · rw [after_append_cons hdash]
    rw [text, plain] at h
    exact ih.closed h

theorem keptText_cut (inside : ∀ a ∈ line, (isBoundary ∘ char) a = false)
    (hb : (isBoundary ∘ char) b = true) (kept : keepLine char line = true)
    (more : keptLines char rest ≠ []) :
    keptText char newline (line ++ b :: rest) = line ++ newline :: keptText char newline rest := by
  rw [keptText, keptLines_cut inside hb, List.filter_cons_of_pos kept, List.filter_nil,
    List.singleton_append, List.intercalate_cons_of_ne_nil more, List.append_assoc]
  rfl

theorem keptText_last (inside : ∀ a ∈ line, (isBoundary ∘ char) a = false)
    (hb : (isBoundary ∘ char) b = true) (kept : keepLine char line = true)
    (last : keptLines char rest = []) : keptText char newline (line ++ b :: rest) = line := by
  rw [keptText, keptLines_cut inside hb, List.filter_cons_of_pos kept, last, List.filter_nil,
    List.append_nil, List.intercalate_singleton]

theorem keptLines_ne_nil (inside : ∀ a ∈ line, (isBoundary ∘ char) a = false)
    (hb : (isBoundary ∘ char) b = true) (kept : keepLine char line = true) (rest : List α) :
    keptLines char (line ++ b :: rest) ≠ [] := by
  rw [keptLines_cut inside hb, List.filter_cons_of_pos kept]
  exact List.cons_ne_nil _ _

/-- A line that is kept and ends outside of literals, in front of a chunk. -/
theorem agrees_kept_cut (hnewline : char newline = '\n')
    (inside : ∀ a ∈ line, (isBoundary ∘ char) a = false) (hb : (isBoundary ∘ char) b = true)
    (hx : x ≠ .comment) (kept : keepLine char line = true)
    (outside : after (kindOf ∘ char) x line ≠ .literal)
    (ih : Agrees char newline
      (next (kindOf ∘ char) (after (kindOf ∘ char) x line) b false) rest) :
    Agrees char newline x (line ++ b :: rest) := by
  have hdash := ne_dash_of_isCut (isCut_of_isBoundary hb)
  have blank := blank_of_isBoundary hb
  have resumes := resume_of_ne_literal (next_of_blank blank outside)
  have hdash' := ne_dash_of_newline hnewline
  have lines := ih.lexemes [] fun _ => rfl
  rw [List.nil_append, List.nil_append, resumes] at lines
  have closed := ih.closed
  rw [resumes] at closed
  by_cases last : keptLines char rest = []
  · have none : keptText char newline rest = [] := by rw [keptText, last]; rfl
    rw [none] at lines
    refine ⟨fun front _ => ?_, fun h => ?_, fun _ => keptLines_ne_nil inside hb kept rest⟩
    · rw [keptText_last inside hb kept last, resume_of_ne_comment hx, scan_append_cons hdash,
        symbol_of_blank blank outside, ← List.append_assoc, lexemes_append_gap rfl, lines]
      exact List.append_nil _
    · rw [keptText_last inside hb kept last, resume_of_ne_comment hx] at h
      exact absurd h outside
  · refine ⟨fun front _ => ?_, fun h => ?_, fun _ => keptLines_ne_nil inside hb kept rest⟩
    · rw [keptText_cut inside hb kept last, resume_of_ne_comment hx, scan_append_cons hdash,
        scan_append_cons hdash', symbol_of_blank blank outside,
        symbol_of_blank (blank_of_newline hnewline) outside,
        next_newline (kind_newline hnewline) outside, ← List.append_assoc, ← List.append_assoc,
        lexemes_append_gap rfl, lexemes_append_gap rfl, lines]
    · rw [keptText_cut inside hb kept last, resume_of_ne_comment hx, after_append_cons hdash',
        next_newline (kind_newline hnewline) outside] at h
      rw [after_append_cons hdash]
      exact closed h

/-- A line that is kept and ends in a literal, in front of a chunk. -/
theorem agrees_literal_cut (hnewline : char newline = '\n')
    (inside : ∀ a ∈ line, (isBoundary ∘ char) a = false) (hb : char b = '\n')
    (hx : x ≠ .comment) (kept : keepLine char line = true)
    (opened : after (kindOf ∘ char) x line = .literal)
    (ih : Agrees char newline .literal rest) : Agrees char newline x (line ++ b :: rest) := by
  have boundary : (isBoundary ∘ char) b = true := by
    rw [Function.comp_apply, hb]
    decide
  have stays : ∀ a, char a = '\n' → next (kindOf ∘ char) .literal a false = .literal :=
    fun a h => next_literal_of_blank (blank_of_newline h)
  have hdash := ne_dash_of_newline hb
  have hdash' := ne_dash_of_newline hnewline
  have more := ih.kept rfl
  have text : keptText char newline (line ++ b :: rest) = _ :=
    keptText_cut inside boundary kept more
  refine ⟨fun front _ => ?_, fun h => ?_, fun _ => keptLines_ne_nil inside boundary kept rest⟩
  · have lines := ih.lexemes (front ++ scan (kindOf ∘ char) x line ++ [.newline])
      fun h => absurd rfl h
    rw [resume] at lines
    rw [text, resume_of_ne_comment hx, scan_append_cons hdash, scan_append_cons hdash', opened,
      stays b hb, stays newline hnewline, symbol_literal_newline (kind_newline hb),
      symbol_literal_newline (kind_newline hnewline)]
    simpa only [List.append_assoc, List.singleton_append] using lines
  · rw [text, resume_of_ne_comment hx, after_append_cons hdash', opened, stays newline hnewline]
      at h
    rw [after_append_cons hdash, opened, stays b hb]
    exact ih.closed h

/-- A chunk is read as the lines of it that are kept. -/
theorem chunk_agrees (hnewline : char newline = '\n')
    (clean : ∀ a ∈ chunk, isSeparator char a = false) (h : LineWise char x chunk) :
    Agrees char newline x chunk := by
  induction chunk using cut_induction (isBoundary ∘ char) generalizing x with
  | last line inside =>
      have clean' : ∀ a ∈ line, isCut char a = false := fun a ha =>
        not_isCut (clean a ha) (inside a ha)
      have whole : LineWise char x (line ++ []) := by rwa [List.append_nil]
      have first := whole.first clean' (by simp)
      cases kept : keepLine char line with
      | true => exact agrees_kept_line inside (first.1 kept) kept
      | false => exact agrees_dropped_line clean' inside (first.2 kept) kept
  | cut line b rest inside hb ih =>
      rw [List.forall_mem_append, List.forall_mem_cons] at clean
      obtain ⟨clean, -, cleanRest⟩ := clean
      have clean' : ∀ a ∈ line, isCut char a = false := fun a ha =>
        not_isCut (clean a ha) (inside a ha)
      have cuts := isCut_of_isBoundary hb
      have first := h.first clean' (by simpa using cuts)
      have ih := ih cleanRest (h.right cuts)
      cases kept : keepLine char line with
      | false => exact agrees_dropped_cut clean' inside hb (first.2 kept) kept ih
      | true =>
          by_cases opened : after (kindOf ∘ char) x line = .literal
          · rw [opened, next_literal_of_blank (blank_of_isBoundary hb)] at ih
            have hb := h.cut_of_literal cuts opened
            exact agrees_literal_cut hnewline inside hb (first.1 kept) kept opened ih
          · exact agrees_kept_cut hnewline inside hb (first.1 kept) kept opened ih

end Chunks

section Statements

variable {α : Type*} {char : α → Char} {x : Context} {a b newline : α}
variable {line rest chunk text script : List α} {lines : List (List α)}

/-- Each of some lines that are kept shows an element when they are joined. -/
theorem exists_shown_intercalate (hnewline : char newline = '\n')
    (clean : ∀ line ∈ lines, ∀ a ∈ line, isCut char a = false)
    (kept : ∀ line ∈ lines, keepLine char line = true) (hx : x ≠ .comment) (hline : line ∈ lines) :
    ∃ a ∈ line, isSpace (char a) = false ∧
      ∃ σ ∈ scan (kindOf ∘ char) x ([newline].intercalate lines), σ.mark = some a := by
  induction lines generalizing x with
  | nil => cases hline
  | cons first lines ih =>
      obtain ⟨cleanFirst, clean⟩ := List.forall_mem_cons.mp clean
      obtain ⟨keptFirst, kept⟩ := List.forall_mem_cons.mp kept
      by_cases last : lines = []
      · rw [last, List.mem_singleton] at hline
        rw [last, List.intercalate_singleton, hline]
        exact exists_shown cleanFirst hx keptFirst
      · have hdash := ne_dash_of_newline hnewline
        rw [List.intercalate_cons_of_ne_nil last, List.append_assoc, List.singleton_append,
          scan_append_cons hdash]
        rcases List.mem_cons.mp hline with rfl | hline
        · obtain ⟨a, ha, inside, σ, hσ, shown⟩ := exists_shown cleanFirst hx keptFirst
          exact ⟨a, ha, inside, σ, List.mem_append_left _ hσ, shown⟩
        · obtain ⟨a, ha, inside, σ, hσ, shown⟩ :=
            ih clean kept (next_newline_ne_comment (kind_newline hnewline) _ false) hline
          exact ⟨a, ha, inside, σ, List.mem_append_right _ (List.mem_cons_of_mem _ hσ), shown⟩

/-- And when the white space around them is dropped. -/
theorem exists_shown_statement (hnewline : char newline = '\n')
    (clean : ∀ a ∈ chunk, isSeparator char a = false) (hline : line ∈ keptLines char chunk) :
    ∃ a ∈ line, ∃ σ ∈ scan (kindOf ∘ char) .plain
      (strip (isSpace ∘ char) (keptText char newline chunk)), σ.mark = some a := by
  have cleanLines : ∀ line ∈ keptLines char chunk, ∀ a ∈ line, isCut char a = false := by
    intro line hline a ha
    obtain ⟨hpiece, -⟩ := List.mem_filter.mp hline
    exact not_isCut (clean a ((infix_of_mem_splitOnP hpiece).subset ha))
      (clean_of_mem_splitOnP hpiece a ha)
  have kept : ∀ line ∈ keptLines char chunk, keepLine char line = true :=
    fun line hline => (List.mem_filter.mp hline).2
  obtain ⟨a, ha, inside, σ, hσ, shown⟩ :=
    exists_shown_intercalate hnewline cleanLines kept (x := .plain) (by rintro ⟨⟩) hline
  obtain ⟨front, back, htext, hfront, hback⟩ :=
    exists_strip (isSpace ∘ char) (keptText char newline chunk)
  refine ⟨a, ha, σ, ?_, shown⟩
  have outside : ∀ blanks : List α, (∀ a ∈ blanks, (isSpace ∘ char) a = true) → a ∉ blanks := by
    intro blanks hblanks hmem
    have space := hblanks a hmem
    rw [Function.comp_apply, inside] at space
    cases space
  change σ ∈ scan _ _ (keptText char newline chunk) at hσ
  rw [htext, scan, scanFrom_append, (scanFrom_plain_blank (blank_of_isSpace hfront) _).2,
    List.mem_append] at hσ
  rcases hσ with hσ | hσ
  · exact absurd (mem_of_mark hσ shown) (outside front hfront)
  · have parts := (append_blank (blank_of_isSpace hback) .plain
      (strip (isSpace ∘ char) (keptText char newline chunk))).1
    rw [scan] at parts
    rw [parts, List.mem_append] at hσ
    exact hσ.resolve_right fun hσ => outside back hback (mem_of_mark hσ shown)

/-- White space around a text that closes its literals does not matter. -/
theorem lexemes_strip (closed : after (kindOf ∘ char) .plain text ≠ .literal) :
    lexemes (scan (kindOf ∘ char) .plain (strip (isSpace ∘ char) text)) =
      lexemes (scan (kindOf ∘ char) .plain text) := by
  obtain ⟨front, back, htext, hfront, hback⟩ := exists_strip (isSpace ∘ char) text
  generalize strip (isSpace ∘ char) text = core at htext ⊢
  rw [htext] at closed ⊢
  obtain ⟨gaps, context⟩ := scanFrom_plain_blank (blank_of_isSpace hfront)
    (ahead (kindOf ∘ char) false (core ++ back))
  obtain ⟨symbols, behind⟩ := append_blank (blank_of_isSpace hback) .plain core
  rw [after, afterFrom_append, context] at closed
  have outside : after (kindOf ∘ char) .plain core ≠ .literal := by
    intro h
    rw [h] at behind
    exact closed (behind.trans (afterFrom_literal_blank (blank_of_isSpace hback) false))
  rw [scan, scan, scanFrom_append, context,
    lexemes_gaps_append fun σ hσ => by rw [gaps σ hσ]; rfl]
  rw [scan, scan] at symbols
  rw [symbols, lexemes_append_gaps]
  intro σ hσ
  rw [(scan_blank (blank_of_isSpace hback) outside).1 σ hσ]
  rfl

/-- The lexemes of a statement that is sent, as SQL reads it. -/
def read (char : α → Char) (statement : List α) : List (List (Symbol α)) :=
  lexemes (scan (kindOf ∘ char) .plain statement)

theorem read_ne_nil (hnewline : char newline = '\n')
    (clean : ∀ a ∈ chunk, isSeparator char a = false) (kept : keptLines char chunk ≠ []) :
    read char (strip (isSpace ∘ char) (keptText char newline chunk)) ≠ [] := by
  obtain ⟨line, hline⟩ := List.exists_mem_of_ne_nil _ kept
  obtain ⟨a, -, σ, hσ, shown⟩ := exists_shown_statement hnewline clean hline
  exact lexemes_ne_nil_of_visible ⟨σ, hσ, a, shown⟩

theorem isSep_scan (clean : ∀ a ∈ chunk, isSeparator char a = false) (x : Context) :
    ∀ σ ∈ scan (kindOf ∘ char) x chunk, σ.isSep = false := by
  refine fun σ hσ => (not_sep_of_mem (fun a ha => ?_) hσ).1
  intro hkind
  have separates : isSeparator char a = true := decide_eq_true (kindOf_separator_iff.mp hkind)
  rw [clean a ha] at separates
  cases separates

/-- The statement of a chunk, if there is one, is what SQL reads of the chunk. -/
theorem chunkStatement_agrees (hnewline : char newline = '\n')
    (clean : ∀ a ∈ chunk, isSeparator char a = false) (h : LineWise char x chunk)
    (hx : x ≠ .literal) (closed : after (kindOf ∘ char) x chunk ≠ .literal) :
    (chunkStatement char newline chunk).toList.map (read char) =
      statements (scan (kindOf ∘ char) x chunk) := by
  have agrees := chunk_agrees hnewline clean h
  have lines := agrees.lexemes [] fun _ => rfl
  rw [List.nil_append, List.nil_append, resume_of_ne_literal hx] at lines
  have text := mt agrees.closed closed
  rw [resume_of_ne_literal hx] at text
  rw [chunkStatement_eq]
  by_cases kept : keptLines char chunk = []
  · have none : keptText char newline chunk = [] := by rw [keptText, kept]; rfl
    rw [none] at lines
    rw [kept, statements_eq_nil (isSep_scan clean x) (lines.trans lexemes_nil)]
    rfl
  · have nonempty := read_ne_nil hnewline clean kept
    have same : read char (strip (isSpace ∘ char) (keptText char newline chunk)) =
        lexemes (scan (kindOf ∘ char) x chunk) := (lexemes_strip text).trans lines.symm
    rw [same] at nonempty
    rw [if_neg (by simpa using kept), statements_eq_singleton (isSep_scan clean x) nonempty, ← same]
    rfl

theorem splitStatementsOf_cut (clean : ∀ a ∈ chunk, isSeparator char a = false)
    (hb : isSeparator char b = true) (rest : List α) :
    splitStatementsOf char newline (chunk ++ b :: rest) =
      (chunkStatement char newline chunk).toList ++ splitStatementsOf char newline rest := by
  rw [splitStatementsOf, List.splitOnP_append_cons_of_forall_mem clean b hb, List.filterMap_cons]
  cases chunkStatement char newline chunk <;> rfl

theorem splitStatementsOf_last (clean : ∀ a ∈ chunk, isSeparator char a = false) :
    splitStatementsOf char newline chunk = (chunkStatement char newline chunk).toList := by
  rw [splitStatementsOf, List.splitOnP_eq_singleton clean, List.filterMap_cons]
  cases chunkStatement char newline chunk <;> rfl

theorem statements_cut_piece {S p : List (Symbol α)} (clean : ∀ σ ∈ S, σ.isSep = false)
    (clean' : ∀ σ ∈ p, σ.isSep = false) (one : lexemes S = [] ∨ lexemes p = []) :
    statements (S ++ .cut :: p) = statements S ++ statements p := by
  have all : ∀ σ ∈ S ++ .cut :: p, σ.isSep = false :=
    List.forall_mem_append.mpr ⟨clean, List.forall_mem_cons.mpr ⟨rfl, clean'⟩⟩
  rw [statements_of_not_sep all, lexemes_append_gap rfl]
  rcases one with empty | empty
  · rw [statements_eq_nil clean empty, statements_of_not_sep clean', empty]
    rfl
  · rw [statements_eq_nil clean' empty, statements_of_not_sep clean, empty, List.append_nil,
      List.append_nil]

/-- In a whole script a separator in a comment ends a statement, or stands in front of one. -/
theorem statements_append_cut {S T : List (Symbol α)} (clean : ∀ σ ∈ S, σ.isSep = false)
    (front : lexemes S ≠ [] → Visible S)
    (back : ∀ p T', T = p ++ T' → (∀ σ ∈ p, σ.isSep = false) → lexemes p ≠ [] → Visible p)
    (whole : Whole (S ++ .cut :: T)) :
    statements (S ++ .cut :: T) = statements S ++ statements T := by
  have one : ∀ p T', T = p ++ T' → (∀ σ ∈ p, σ.isSep = false) →
      S ++ .cut :: p ∈ (S ++ .cut :: T).splitOnP Symbol.isSep →
        lexemes S = [] ∨ lexemes p = [] := by
    intro p T' hT clean' hmem
    by_contra both
    push Not at both
    exact whole _ hmem S p rfl ⟨front both.1, back p T' hT clean' both.2⟩
  have all : ∀ p : List (Symbol α), (∀ σ ∈ p, σ.isSep = false) →
      ∀ σ ∈ S ++ .cut :: p, σ.isSep = false := fun p clean' =>
    List.forall_mem_append.mpr ⟨clean, List.forall_mem_cons.mpr ⟨rfl, clean'⟩⟩
  induction T using cut_induction Symbol.isSep with
  | last p clean' =>
      refine statements_cut_piece clean clean' (one p [] (List.append_nil p).symm clean' ?_)
      rw [List.splitOnP_eq_singleton (all p clean')]
      exact List.mem_singleton_self _
  | cut p σ T clean' separates =>
      cases σ with
      | sep =>
          have empty := one p (.sep :: T) rfl clean' (by
            rw [← List.cons_append, ← List.append_assoc,
              List.splitOnP_append_cons_of_forall_mem (all p clean') _ separates]
            exact List.mem_cons_self)
          rw [← List.cons_append, ← List.append_assoc, statements_append_sep,
            statements_append_sep, statements_cut_piece clean clean' empty, List.append_assoc]
      | gap | cut | ch | lit | newline => cases separates

theorem Whole.right {S T : List (Symbol α)} (whole : Whole (S ++ T)) : Whole T := by
  rintro statement hstatement b c rfl ⟨hb, hc⟩
  obtain ⟨front, hmem⟩ := exists_front hstatement S
  refine whole _ hmem (front ++ b) c (List.append_assoc _ _ _).symm ⟨?_, hc⟩
  obtain ⟨σ, hσ, shown⟩ := hb
  exact ⟨σ, List.mem_append_right _ hσ, shown⟩

/-- The statements of a script that can be split are what SQL reads of it. -/
theorem split_agrees (hnewline : char newline = '\n') (h : LineWise char x script)
    (whole : Whole (scan (kindOf ∘ char) x script)) (hx : x ≠ .literal)
    (closed : after (kindOf ∘ char) x script ≠ .literal) :
    (splitStatementsOf char newline script).map (read char) =
      statements (scan (kindOf ∘ char) x script) := by
  induction script using cut_induction (isSeparator char) generalizing x with
  | last chunk clean =>
      rw [splitStatementsOf_last clean, chunkStatement_agrees hnewline clean h hx closed]
  | cut chunk b rest clean hb ih =>
      have cuts := isCut_of_isSeparator hb
      have hdash := ne_dash_of_isCut cuts
      have hkind : (kindOf ∘ char) b = .separator :=
        kindOf_separator_iff.mpr (of_decide_eq_true hb)
      have outside : after (kindOf ∘ char) x chunk ≠ .literal := fun inside => by
        have newline := h.cut_of_literal cuts inside
        rw [of_decide_eq_true hb] at newline
        cases newline
      have right := h.right cuts
      rw [after_append_cons hdash, next_separator hkind] at closed
      rw [next_separator hkind] at right
      rw [scan_append_cons hdash, next_separator hkind] at whole ⊢
      have ih := ih right (Whole.right (List.append_cons _ _ _ ▸ whole)) outside closed
      rw [splitStatementsOf_cut clean hb, List.map_append, ih,
        chunkStatement_agrees hnewline clean (h.left cuts) hx outside]
      cases context : after (kindOf ∘ char) x chunk with
      | literal => exact absurd context outside
      | plain => rw [symbol_separator_plain hkind, statements_append_sep]
      | comment =>
          rw [context, symbol_separator_comment hkind] at whole
          rw [symbol_separator_comment hkind]
          refine (statements_append_cut (isSep_scan clean x) ?_ ?_ whole).symm
          · intro nonempty
            exact visible_of_lexemes hx (List.append_nil _).symm (isSep_scan clean x) nonempty
          · intro p T' hT clean' nonempty
            exact visible_of_lexemes (by rintro ⟨⟩) hT clean' nonempty

end Statements

end PaymentsPlatform.Trino
