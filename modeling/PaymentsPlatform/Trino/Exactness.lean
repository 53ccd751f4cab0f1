import PaymentsPlatform.Trino.Splitting

/-!
# When the statements are those of the script

The statements that `split_statements` returns are compared with what SQL reads of the script,
as texts and by the positions in the script that their characters come from. They are the same
exactly for the scripts that can be split (`splitStatements_exact_iff`): a lexeme that is shown
on one side comes from an element of the script, and is shown on the other side by the same one.
-/

namespace PaymentsPlatform.Trino

open Text Text.Lexical

section Necessity

variable {α : Type*} {char : α → Char} {newline a b : α}
variable {script statement line before rest : List α} {lines : List (List α)}
variable {w : List (Symbol α)}

/-- The statements of a script are what SQL reads of it, element by element. -/
def Faithful (char : α → Char) (newline : α) (script : List α) : Prop :=
  (splitStatementsOf char newline script).map (read char) =
    statements (scan (kindOf ∘ char) .plain script)

/-- What SQL shows of the script is in a statement. -/
theorem Faithful.exists_statement (faithful : Faithful char newline script) (nonempty : w ≠ [])
    (inside : ∀ σ ∈ w, σ.isGap = false ∧ σ.isSep = false)
    (h : w <:+: scan (kindOf ∘ char) .plain script) :
    ∃ statement ∈ splitStatementsOf char newline script,
      w <:+: scan (kindOf ∘ char) .plain statement := by
  obtain ⟨words, hwords, word, hword, hw⟩ := Text.Lexical.exists_statement nonempty inside h
  rw [← faithful] at hwords
  obtain ⟨statement, hstatement, rfl⟩ := List.mem_map.mp hwords
  exact ⟨statement, hstatement, hw.trans (infix_of_mem_lexemes hword)⟩

/-- What SQL shows of a statement is in the script. -/
theorem Faithful.mem_scan (faithful : Faithful char newline script)
    (hstatement : statement ∈ splitStatementsOf char newline script) {σ : Symbol α}
    (hσ : σ ∈ scan (kindOf ∘ char) .plain statement) (shown : σ.mark = some a) :
    σ ∈ scan (kindOf ∘ char) .plain script := by
  obtain ⟨word, hword, hσ⟩ := exists_lexeme_of_mark hσ shown
  have hwords : read char statement ∈ statements (scan (kindOf ∘ char) .plain script) := by
    rw [← faithful]
    exact List.mem_map_of_mem hstatement
  exact (infix_of_mem_statements hwords hword).subset hσ

/-- An element that is shown is in a statement, and in a line that is kept. -/
theorem Faithful.exists_keptLine (faithful : Faithful char newline script)
    (fresh : newline ∉ script) {σ : Symbol α}
    (hσ : σ ∈ scan (kindOf ∘ char) .plain script) (shown : σ.mark = some a) :
    ∃ line ∈ script.splitOnP (isCut char), keepLine char line = true ∧ a ∈ line := by
  have inside : ∀ τ ∈ [σ], τ.isGap = false ∧ τ.isSep = false := by
    intro τ hτ
    rw [List.mem_singleton.mp hτ]
    exact ⟨isGap_of_mark shown, isSep_of_mark shown⟩
  obtain ⟨statement, hstatement, hw⟩ := faithful.exists_statement (List.cons_ne_nil σ []) inside
    ((List.singleton_infix_iff _ _).mpr hσ)
  have hmem := mem_of_mark (hw.subset List.mem_cons_self) shown
  refine Trino.exists_keptLine hstatement hmem ?_
  rintro rfl
  exact fresh (mem_of_mark hσ shown)

theorem Faithful.literals (faithful : Faithful char newline script) (fresh : newline ∉ script)
    (h : .lit a ∈ scan (kindOf ∘ char) .plain script) : isCut char a = false := by
  obtain ⟨line, hline, -, ha⟩ := faithful.exists_keptLine fresh h rfl
  exact clean_of_mem_splitOnP hline a ha

theorem exists_intercalate (newline : α) (line : List α) (lines : List (List α)) :
    ∃ rest, [newline].intercalate (line :: lines) = line ++ rest := by
  by_cases last : lines = []
  · exact ⟨[], by rw [last, List.intercalate_singleton, List.append_nil]⟩
  · exact ⟨_, by rw [List.intercalate_cons_of_ne_nil last, List.append_assoc]⟩

/-- Joined lines have no two newlines in a row. -/
theorem isChain_intercalate (nonempty : ∀ line ∈ lines, line ≠ [])
    (clean : ∀ line ∈ lines, ∀ a ∈ line, char a ≠ '\n') :
    ([newline].intercalate lines).IsChain fun a b => ¬(char a = '\n' ∧ char b = '\n') := by
  induction lines with
  | nil => exact .nil
  | cons line lines ih =>
      obtain ⟨hline, nonempty⟩ := List.forall_mem_cons.mp nonempty
      obtain ⟨cleanLine, clean⟩ := List.forall_mem_cons.mp clean
      have first : line.Pairwise fun a b => ¬(char a = '\n' ∧ char b = '\n') :=
        List.pairwise_of_forall_mem_list fun a ha b _ both => cleanLine a ha both.1
      cases lines with
      | nil =>
          rw [List.intercalate_singleton]
          exact first.isChain
      | cons next lines =>
          obtain ⟨rest, hrest⟩ := exists_intercalate newline next lines
          have ih := ih nonempty clean
          rw [List.intercalate_cons_of_ne_nil (List.cons_ne_nil _ _), List.append_assoc,
            List.singleton_append, List.isChain_append, List.isChain_cons]
          refine ⟨first.isChain, ⟨fun b hb both => ?_, ih⟩, fun a ha b _ both => ?_⟩
          · rw [hrest, List.head?_append_of_ne_nil _ (nonempty next List.mem_cons_self)] at hb
            exact clean next List.mem_cons_self b (List.mem_of_mem_head? hb) both.2
          · exact cleanLine a (List.mem_of_getLast? ha) both.1

/-- Nor has a statement. -/
theorem not_newlines (h : statement ∈ splitStatementsOf char newline script) :
    ¬[.newline, .newline] <:+: scan (kindOf ∘ char) .plain statement := by
  intro double
  obtain ⟨a, b, pair, ha, hb⟩ := exists_newlines double
  obtain ⟨chunk, -, -, rfl⟩ := mem_splitStatementsOf.mp h
  obtain ⟨front, back, htext, -, -⟩ := exists_strip (isSpace ∘ char) (keptText char newline chunk)
  have chain : (keptText char newline chunk).IsChain fun a b =>
      ¬(char a = '\n' ∧ char b = '\n') := by
    refine isChain_intercalate (fun line hline empty => ?_) fun line hline a ha hchar => ?_
    · have kept := (List.mem_filter.mp hline).2
      rw [empty] at kept
      cases kept
    · have inside := clean_of_mem_splitOnP (List.mem_filter.mp hline).1 a ha
      rw [Function.comp_apply, hchar] at inside
      cases inside
  have inside : [a, b] <:+: keptText char newline chunk := by
    rw [htext, ← List.append_assoc]
    exact pair.trans (List.infix_append _ _ _)
  have apart := List.IsChain.infix chain inside
  exact List.isChain_pair.mp apart ⟨kindOf_newline_iff.mp ha, kindOf_newline_iff.mp hb⟩

/-- What is scanned behind the cut in front of a line. -/
theorem scan_behind_cut (starts : ∀ b ∈ before.getLast?, isCut char b = true) (x : Context)
    (text : List α) : scan (kindOf ∘ char) x (before ++ text) =
      scan (kindOf ∘ char) x before ++
        scan (kindOf ∘ char) (after (kindOf ∘ char) x before) text :=
  scan_append (fun b hb => ne_dash_of_isCut (starts b hb)) x text

/-- A cut in a literal is a newline. -/
theorem Faithful.newline_of_literal (faithful : Faithful char newline script)
    (fresh : newline ∉ script) (hscript : script = before ++ b :: rest)
    (hb : isCut char b = true) (inside : after (kindOf ∘ char) .plain before = .literal) :
    (kindOf ∘ char) b = .newline := by
  by_contra other
  have shown : .lit b ∈ scan (kindOf ∘ char) .plain script := by
    rw [hscript, scan_append_cons (ne_dash_of_isCut hb), inside, symbol_literal other]
    simp
  have clean := faithful.literals fresh shown
  rw [hb] at clean
  cases clean

/-- A cut opens no literal. -/
theorem after_of_cut (hb : isCut char b = true)
    (h : after (kindOf ∘ char) .plain (before ++ [b]) = .literal) :
    after (kindOf ∘ char) .plain before = .literal := by
  rw [after_append_cons (ne_dash_of_isCut hb)] at h
  refine (literal_or_quote h).resolve_right fun hkind => ?_
  rw [isCut, isSeparator, kindOf_quote_iff.mp hkind] at hb
  cases hb

/-- A line that starts in a literal is kept. -/
theorem Faithful.keepLine_of_literal (faithful : Faithful char newline script)
    (fresh : newline ∉ script) (nodup : script.Nodup)
    (closed : after (kindOf ∘ char) .plain script ≠ .literal)
    (hscript : script = before ++ (line ++ rest)) (clean : ∀ a ∈ line, isCut char a = false)
    (starts : ∀ b ∈ before.getLast?, isCut char b = true)
    (ends : ∀ b ∈ rest.head?, isCut char b = true)
    (inside : after (kindOf ∘ char) .plain before = .literal) : keepLine char line = true := by
  cases line with
  | cons a line =>
      have shown : .lit a ∈ scan (kindOf ∘ char) .plain script := by
        rw [hscript, scan_behind_cut starts, inside]
        exact List.mem_append_right _
          (lit_mem_scan (ne_newline_of_not_isCut (clean a List.mem_cons_self)) _)
      obtain ⟨kept, hkept, hkeep, ha⟩ := faithful.exists_keptLine fresh shown rfl
      have piece : a :: line ∈ script.splitOnP (isCut char) :=
        hscript ▸ mem_splitOnP clean starts ends
      rwa [piece_unique nodup piece hkept List.mem_cons_self ha]
  | nil =>
      -- Two cuts in a row are newlines of the literal, and no statement has such.
      cases before using List.reverseRecOn with
      | nil => cases inside
      | append_singleton before c =>
          have hc : isCut char c = true := starts c (by simp)
          have opened := after_of_cut hc inside
          cases rest with
          | nil =>
              rw [hscript, List.append_nil, List.append_nil] at closed
              exact absurd inside closed
          | cons d rest =>
              have hd : isCut char d = true := ends d rfl
              have hscript' : script = before ++ c :: d :: rest := by
                rw [hscript, List.append_assoc]
                rfl
              have first := faithful.newline_of_literal fresh hscript' hc opened
              have second := faithful.newline_of_literal fresh hscript hd inside
              have stays : next (kindOf ∘ char) .literal c false = .literal :=
                next_literal_of_blank (by rw [first]; rfl)
              have double : [.newline, .newline] <:+: scan (kindOf ∘ char) .plain script := by
                refine ⟨scan (kindOf ∘ char) .plain before,
                  scan (kindOf ∘ char) (next (kindOf ∘ char) .literal d false) rest, ?_⟩
                rw [hscript', scan_append_cons (ne_dash_of_isCut hc),
                  scan_cons (ne_dash_of_isCut hd), opened, stays, symbol_literal_newline first,
                  symbol_literal_newline second, List.append_assoc]
                rfl
              obtain ⟨statement, hstatement, inside⟩ := faithful.exists_statement
                (List.cons_ne_nil _ _) (by simp [Symbol.isGap, Symbol.isSep]) double
              exact absurd inside (not_newlines hstatement)

/-- A line that starts in a comment is left out. -/
theorem Faithful.not_keepLine_of_comment (hnewline : char newline = '\n')
    (faithful : Faithful char newline script) (nodup : script.Nodup)
    (hscript : script = before ++ (line ++ rest)) (clean : ∀ a ∈ line, isCut char a = false)
    (starts : ∀ b ∈ before.getLast?, isCut char b = true)
    (ends : ∀ b ∈ rest.head?, isCut char b = true)
    (inside : after (kindOf ∘ char) .plain before = .comment) : keepLine char line = false := by
  by_contra kept
  rw [Bool.not_eq_false] at kept
  have piece : line ∈ script.splitOnP (isCut char) := hscript ▸ mem_splitOnP clean starts ends
  obtain ⟨chunk, hchunk, hline⟩ := mem_splitOnP_isCut.mp piece
  have hkept : line ∈ keptLines char chunk := List.mem_filter.mpr ⟨hline, kept⟩
  obtain ⟨a, ha, σ, hσ, shown⟩ :=
    exists_shown_statement hnewline (clean_of_mem_splitOnP hchunk) hkept
  have hmem := faithful.mem_scan
    (mem_splitStatementsOf.mpr ⟨chunk, hchunk, List.ne_nil_of_mem hkept, rfl⟩) hσ shown
  obtain ⟨-, -, apart⟩ := List.nodup_append.mp (hscript ▸ nodup)
  obtain ⟨-, -, apart'⟩ := List.nodup_append.mp (List.nodup_append.mp (hscript ▸ nodup)).2.1
  rw [hscript, scan_behind_cut starts, inside, List.mem_append] at hmem
  rcases hmem with hmem | hmem
  · exact apart a (mem_of_mark hmem shown) a (List.mem_append_left _ ha) rfl
  · rw [scan, scanFrom_append, List.mem_append] at hmem
    rcases hmem with hmem | hmem
    · rw [(scanFrom_comment clean _).1 σ hmem] at shown
      cases shown
    · exact apart' a ha a (mem_of_mark hmem shown) rfl

theorem Faithful.lineWise (hnewline : char newline = '\n')
    (faithful : Faithful char newline script) (fresh : newline ∉ script) (nodup : script.Nodup)
    (closed : after (kindOf ∘ char) .plain script ≠ .literal) : LineWise char .plain script := by
  refine ⟨fun a ha => faithful.literals fresh ha, ?_⟩
  intro before line rest hscript clean starts ends
  exact ⟨faithful.keepLine_of_literal fresh nodup closed hscript clean starts ends,
    faithful.not_keepLine_of_comment hnewline nodup hscript clean starts ends⟩

/-- What SQL shows of one of its statements is in one statement. -/
theorem Faithful.exists_of_piece (faithful : Faithful char newline script)
    {piece : List (Symbol α)}
    (hpiece : piece ∈ (scan (kindOf ∘ char) .plain script).splitOnP Symbol.isSep)
    (visible : Visible piece) : ∃ statement ∈ splitStatementsOf char newline script,
      ∀ σ ∈ piece, ∀ a, σ.mark = some a → a ∈ statement := by
  have hwords : lexemes piece ∈ statements (scan (kindOf ∘ char) .plain script) :=
    List.mem_filter.mpr ⟨List.mem_map_of_mem hpiece, by
      simpa using lexemes_ne_nil_of_visible visible⟩
  rw [← faithful] at hwords
  obtain ⟨statement, hstatement, same⟩ := List.mem_map.mp hwords
  refine ⟨statement, hstatement, fun σ hσ a shown => ?_⟩
  obtain ⟨word, hword, hσ⟩ := exists_lexeme_of_mark hσ shown
  rw [← same] at hword
  exact mem_of_mark ((infix_of_mem_lexemes hword).subset hσ) shown

/-- What stands on both sides of a separator is not in one statement. -/
theorem Faithful.whole (faithful : Faithful char newline script) (fresh : newline ∉ script)
    (nodup : script.Nodup) : Whole (scan (kindOf ∘ char) .plain script) := by
  rintro piece hpiece before behind rfl ⟨⟨σ, hσ, a, ha⟩, τ, hτ, b, hb⟩
  have hσ' : σ ∈ before ++ .cut :: behind := List.mem_append_left _ hσ
  have hτ' : τ ∈ before ++ .cut :: behind :=
    List.mem_append_right _ (List.mem_cons_of_mem _ hτ)
  obtain ⟨statement, hstatement, shown⟩ := faithful.exists_of_piece hpiece ⟨σ, hσ', a, ha⟩
  obtain ⟨chunk, hchunk, -, rfl⟩ := mem_splitStatementsOf.mp hstatement
  have part := infix_of_mem_splitOnP hpiece
  have inChunk : ∀ ρ ∈ before ++ .cut :: behind, ∀ c, ρ.mark = some c → c ∈ chunk := by
    intro ρ hρ c hc
    refine mem_chunk (shown ρ hρ c hc) ?_
    rintro rfl
    exact fresh (mem_of_mark (part.subset hρ) hc)
  -- The separator stands between the two elements, so no chunk has both.
  obtain ⟨L, R, hscan⟩ := part
  rw [← List.append_assoc, List.append_assoc] at hscan
  obtain ⟨s, c, t, hscript, hc, left, right⟩ := exists_separator hscan.symm
  have separates : isSeparator char c = true := decide_eq_true (kindOf_separator_iff.mp hc)
  have inLeft := left σ (List.mem_append_right _ hσ) a ha
  have inRight := right τ (List.mem_append_left _ hτ) b hb
  rw [hscript] at nodup hchunk
  obtain ⟨-, -, apart⟩ := List.nodup_append.mp nodup
  rw [List.splitOnP_append_cons s t separates, List.mem_append] at hchunk
  rcases hchunk with hchunk | hchunk
  · have hb' := (infix_of_mem_splitOnP hchunk).subset (inChunk τ hτ' b hb)
    exact apart b hb' b (List.mem_cons_of_mem _ inRight) rfl
  · have ha' := (infix_of_mem_splitOnP hchunk).subset (inChunk σ hσ' a ha)
    exact apart a inLeft a (List.mem_cons_of_mem _ ha') rfl

/-- A script with marked elements is split faithfully exactly when it can be split. -/
theorem faithful_iff_splittable (hnewline : char newline = '\n') (fresh : newline ∉ script)
    (nodup : script.Nodup) (closed : after (kindOf ∘ char) .plain script ≠ .literal) :
    Faithful char newline script ↔ Splittable char script := by
  constructor
  · exact fun faithful =>
      ⟨faithful.lineWise hnewline fresh nodup closed, faithful.whole fresh nodup⟩
  · exact fun h => split_agrees hnewline h.lineWise h.whole (by rintro ⟨⟩) closed

end Necessity

section Map

variable {α β : Type*} {char : β → Char} {f : α → β} {x : Context} {script : List α}

theorem isCut_map (char : β → Char) (f : α → β) (a : α) :
    isCut (char ∘ f) a = isCut char (f a) := rfl

theorem after_map (x : Context) (text : List α) :
    after (kindOf ∘ char) x (text.map f) = after (kindOf ∘ (char ∘ f)) x text :=
  afterFrom_map (kindOf ∘ char) f false x text

theorem scan_map (x : Context) (text : List α) :
    scan (kindOf ∘ char) x (text.map f) =
      (scan (kindOf ∘ (char ∘ f)) x text).map (Symbol.map f) :=
  scanFrom_map (kindOf ∘ char) f false x text

theorem mark_map (σ : Symbol α) : (σ.map f).mark = σ.mark.map f := by cases σ <;> rfl

theorem visible_map {S : List (Symbol α)} : Visible (S.map (Symbol.map f)) ↔ Visible S := by
  simp only [Visible, List.mem_map, exists_exists_and_eq_and, mark_map, Option.map_eq_some_iff]
  grind

theorem lineWise_map : LineWise char x (script.map f) ↔ LineWise (char ∘ f) x script := by
  constructor
  · intro h
    refine ⟨fun a ha => h.literals (f a) ?_, ?_⟩
    · rw [scan_map]
      exact List.mem_map.mpr ⟨.lit a, ha, rfl⟩
    · rintro before line rest rfl clean starts ends
      have lines := h.lines (before.map f) (line.map f) (rest.map f) (by simp)
        (by simpa [isCut_map] using clean) (by simpa [isCut_map] using starts)
        (by simpa [isCut_map] using ends)
      rwa [after_map, keepLine_map] at lines
  · intro h
    refine ⟨fun b hb => ?_, ?_⟩
    · rw [scan_map] at hb
      obtain ⟨σ, hσ, same⟩ := List.mem_map.mp hb
      cases σ <;> cases same
      exact h.literals _ hσ
    · rintro before line rest hscript clean starts ends
      obtain ⟨before, tail, rfl, rfl, htail⟩ := List.map_eq_append_iff.mp hscript
      obtain ⟨line, rest, rfl, rfl, rfl⟩ := List.map_eq_append_iff.mp htail
      rw [after_map, keepLine_map]
      exact h.lines before line rest rfl (by simpa [isCut_map] using clean)
        (by simpa [isCut_map] using starts) (by simpa [isCut_map] using ends)

theorem whole_map {S : List (Symbol α)} : Whole (S.map (Symbol.map f)) ↔ Whole S := by
  have same : Symbol.isSep ∘ Symbol.map f = Symbol.isSep := funext (isSep_map f)
  constructor
  · rintro h piece hpiece b c rfl both
    refine h ((b ++ .cut :: c).map (Symbol.map f)) ?_ (b.map (Symbol.map f))
      (c.map (Symbol.map f)) (by simp [Symbol.map])
      ⟨visible_map.mpr both.1, visible_map.mpr both.2⟩
    rw [splitOnP_map, same]
    exact List.mem_map_of_mem hpiece
  · intro h mapped hmapped b c hcut both
    rw [splitOnP_map, same] at hmapped
    obtain ⟨piece, hpiece, rfl⟩ := List.mem_map.mp hmapped
    obtain ⟨b, tail, rfl, rfl, htail⟩ := List.map_eq_append_iff.mp hcut
    obtain ⟨σ, c, rfl, hσ, rfl⟩ := List.map_eq_cons_iff.mp htail
    cases σ <;> cases hσ
    exact h _ hpiece b c rfl ⟨visible_map.mp both.1, visible_map.mp both.2⟩

/-- Whether a script can be split is up to its characters. -/
theorem splittable_map : Splittable char (script.map f) ↔ Splittable (char ∘ f) script := by
  constructor
  · exact fun h => ⟨lineWise_map.mp h.lineWise, whole_map.mp (scan_map _ script ▸ h.whole)⟩
  · exact fun h => ⟨lineWise_map.mpr h.lineWise, scan_map _ script ▸ whole_map.mpr h.whole⟩

theorem read_map (statement : List α) :
    read char (statement.map f) =
      (read (char ∘ f) statement).map (List.map (Symbol.map f)) := by
  rw [read, scan_map, lexemes_map]
  rfl

/-- What is faithful element by element is faithful text by text. -/
theorem Faithful.map {newline : α} (faithful : Faithful (char ∘ f) newline script) :
    Faithful char (f newline) (script.map f) := by
  have texts := congrArg (List.map (List.map (List.map (Symbol.map f)))) faithful
  rw [Faithful, splitStatementsOf_map, List.map_map, scan_map, statements_map, ← texts,
    List.map_map]
  exact List.map_congr_left fun statement _ => read_map statement

end Map

section Scripts

variable {script : String}

/-- The characters of a script with their positions. A newline that `split_statements` puts in
has none. -/
def mark (script : String) : List (Char × Option ℕ) :=
  script.toList.zipIdx.map fun e => (e.1, some e.2)

/-- The statements are those of the script, in order: their lexemes are the same texts, from
the same positions of the script. -/
structure Exact (script : String) : Prop where
  texts : (splitStatements script).map (fun statement => read id statement.toList) =
    statements (scan kindOf .plain script.toList)
  origins : Faithful Prod.fst ('\n', none) (mark script)

theorem map_mark (script : String) : (mark script).map Prod.fst = script.toList := by
  rw [mark, List.map_map]
  exact List.zipIdx_map_fst 0 script.toList

theorem nodup_mark (script : String) : (mark script).Nodup := by
  refine List.Nodup.map ?_ (List.Nodup.of_map Prod.snd (List.nodup_zipIdx_map_snd _))
  rintro ⟨c, i⟩ ⟨d, j⟩ same
  simpa using same

theorem newline_not_mem_mark (script : String) : ('\n', none) ∉ mark script := by
  simp [mark]

/-- The statements of a script whose literals are closed are those that SQL reads in it exactly
when the script can be split. -/
theorem splitStatements_exact_iff (script : String)
    (closed : after kindOf .plain script.toList ≠ .literal) :
    Exact script ↔ Splittable id script.toList := by
  have context : after (kindOf ∘ id) .plain ((mark script).map Prod.fst) =
      after (kindOf ∘ Prod.fst) .plain (mark script) := after_map .plain (mark script)
  have closed' : after (kindOf ∘ Prod.fst) .plain (mark script) ≠ .literal := by
    rw [← context, map_mark]
    exact closed
  have marked : Faithful Prod.fst ('\n', none) (mark script) ↔ Splittable Prod.fst (mark script) :=
    faithful_iff_splittable rfl (newline_not_mem_mark script) (nodup_mark script) closed'
  have same : Splittable id script.toList ↔ Splittable Prod.fst (mark script) := by
    rw [← map_mark]
    exact splittable_map
  rw [same, ← marked]
  constructor
  · exact fun h => h.origins
  · intro origins
    have marks : Faithful (id ∘ Prod.fst) ('\n', none) (mark script) := origins
    have texts : (splitStatementsOf id '\n' script.toList).map (read id) =
        statements (scan kindOf .plain script.toList) := map_mark script ▸ marks.map
    refine ⟨?_, origins⟩
    rw [splitStatements, List.map_map, ← texts]
    refine List.map_congr_left fun statement _ => ?_
    rw [Function.comp_apply, String.toList_ofList]

/-- A script with comments and a literal. -/
def sampleScript : String := "-- of one day\nSELECT '--', 1 -- today\nFROM t;\n-- done\n"

theorem splitStatements_exact_iff_sample : Splittable id sampleScript.toList :=
  (splitStatements_exact_iff sampleScript (by decide)).mp
    ⟨by decide, by unfold Faithful; decide⟩

/-- A separator in a literal cuts the statement. -/
theorem literal_cut : splitStatements "SELECT 'a;b';" = ["SELECT 'a", "b'"] ∧
    ¬Exact "SELECT 'a;b';" := by
  refine ⟨by decide, fun exact => ?_⟩
  have counted := congrArg List.length exact.texts
  revert counted
  decide

example : splitStatements "-- one; two\nSELECT 1;" = ["two\nSELECT 1"] := by decide

end Scripts

end PaymentsPlatform.Trino
