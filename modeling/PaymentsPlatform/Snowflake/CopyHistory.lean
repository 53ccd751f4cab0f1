import PaymentsPlatform.Snowflake.Landing
import PaymentsPlatform.Sql.Like

/-!
# The load history of one run

`copy_history_sql` and `copy_history_for_run` of
`snowflake_etl/src/load_to_snowflake.py`: the files of a run are looked up with `LIKE`
under the `run=<id>/` segment of their keys. The characters that staging keeps in a run id
are not all literal to `LIKE`: `separates_iff` finds the files of another run counted for a
run exactly when the other id is the run's own with some underscores replaced.
-/

namespace PaymentsPlatform.Snowflake.CopyHistory

/-- The quote of a SQL string. -/
def quote : Char := '\x27'

/-- The text between the quotes of a SQL string: a quote is written twice. -/
def doubleQuotes (s : List Char) : List Char :=
  s.flatMap fun c => if c = quote then [quote, quote] else [c]

/-- The text of the pattern, between its quotes. -/
def patternText (runId : String) : String :=
  "%run=" ++ String.ofList (doubleQuotes runId.toList) ++ "/%"

/-- What the engine reads in a string: a doubled quote is one quote. -/
def unquote : List Char → List Char
  | [] => []
  | [c] => [c]
  | c :: c' :: s =>
      if c = quote ∧ c' = quote then quote :: unquote s else c :: unquote (c' :: s)

/-- The files that the history of a run is about. -/
def selects (runId fileName : String) : Bool :=
  Sql.like (unquote (patternText runId).toList) fileName.toList

/-- `copy_history_for_run`, given what `COPY_HISTORY` has about the table since the start
time. -/
def copyHistoryForRun (history : List LoadRecord) (runId : String) : CopyOutcome :=
  parseCopyResult ((history.filter fun r => selects runId r.fileName).map LoadRecord.cells)

variable {Line : Type} {run first second : PipelineRun Line} {key runId : String}
variable {c : Char} {xs ys zs ws : List Char}

/-- Text is split at a separator that does not come again. -/
theorem append_cons_split (h : xs ++ c :: ys = zs ++ c :: ws) (last : c ∉ ws) :
    (xs = zs ∧ ys = ws) ∨ ∃ middle, zs = xs ++ c :: middle := by
  rcases List.append_eq_append_iff.mp h with ⟨middle, hzs, tail⟩ | ⟨middle, hxs, tail⟩
  · cases middle with
    | nil => exact .inl ⟨by simp [hzs], (List.cons.inj tail).2⟩
    | cons x middle => exact .inr ⟨middle, by rw [hzs, (List.cons.inj tail).1]⟩
  · cases middle with
    | nil => exact .inl ⟨by simp [hxs], (List.cons.inj tail).2.symm⟩
    | cons x middle =>
        rw [(List.cons.inj tail).2] at last
        exact absurd (List.mem_append_right _ List.mem_cons_self) last

theorem unquote_cons (plain : c ≠ quote) (s : List Char) : unquote (c :: s) = c :: unquote s := by
  cases s with
  | nil => rfl
  | cons c' s => rw [unquote, if_neg fun h => plain h.1]

/-- The engine reads the pattern as it was meant, whatever the run id. -/
theorem unquote_doubleQuotes (s rest : List Char) :
    unquote (doubleQuotes s ++ rest) = s ++ unquote rest := by
  induction s with
  | nil => rfl
  | cons c s ih =>
      rw [doubleQuotes, List.flatMap_cons, ← doubleQuotes, List.append_assoc]
      by_cases quoted : c = quote
      · subst quoted
        rw [if_pos rfl, List.cons_append, List.singleton_append, unquote, if_pos ⟨rfl, rfl⟩, ih]
        rfl
      · rw [if_neg quoted, List.singleton_append, unquote_cons quoted, ih]
        rfl

theorem unquote_patternText (runId : String) : unquote (patternText runId).toList =
    '%' :: ("run=".toList ++ (runId.toList ++ ['/']) ++ ['%']) := by
  have text : (patternText runId).toList =
      '%' :: 'r' :: 'u' :: 'n' :: '=' :: (doubleQuotes runId.toList ++ ['/', '%']) := by
    simp [patternText]
  have plain : ∀ c ∈ ['%', 'r', 'u', 'n', '='], c ≠ quote := by simp [quote]
  rw [text, unquote_cons (plain _ (by simp)), unquote_cons (plain _ (by simp)),
    unquote_cons (plain _ (by simp)), unquote_cons (plain _ (by simp)),
    unquote_cons (plain _ (by simp)), unquote_doubleQuotes]
  simp [unquote, quote]

/-- A file is selected when its name has a segment that the run id admits. -/
theorem selects_iff (literal : '%' ∉ runId.toList) : selects runId key = true ↔
    ∃ before part after, key.toList = before ++ ("run=".toList ++ (part ++ '/' :: after)) ∧
      Sql.Fits runId.toList part := by
  have plain : '%' ∉ "run=".toList ++ (runId.toList ++ ['/']) := by simp [literal]
  rw [selects, unquote_patternText, Sql.like_contains plain]
  constructor
  · rintro ⟨before, piece, after, hkey, fits⟩
    obtain ⟨marker, rest, rfl, hmarker, fits⟩ := Sql.Fits.append_iff.mp fits
    obtain ⟨part, slash, rfl, hpart, hslash⟩ := Sql.Fits.append_iff.mp fits
    obtain rfl := hmarker.eq_of_literal (by decide)
    obtain rfl := hslash.eq_of_literal (by decide)
    exact ⟨before, part, after, by simp [hkey], hpart⟩
  · rintro ⟨before, part, after, hkey, fits⟩
    refine ⟨before, "run=".toList ++ (part ++ ['/']), after, by simp [hkey], ?_⟩
    exact Sql.Fits.append_iff.mpr ⟨_, _, rfl, .refl _, Sql.Fits.append_iff.mpr
      ⟨_, _, rfl, fits, .refl _⟩⟩

/-- A sanitized run id has none of the other characters. -/
theorem not_mem_id (run : PipelineRun Line) (hc : isRunIdChar c = false) : c ∉ run.id.toList :=
  fun h => by
    have := (isRunIdChar_of_sanitized run.usable).2 c h
    rw [hc] at this
    cases this

/-- A key of a run, split at its segment. -/
theorem exists_tail_of_mem_parts (h : key ∈ run.parts) : ∃ tail, '/' ∉ tail ∧ '=' ∉ tail ∧
    key.toList = run.partition.toList ++ ("run=".toList ++ (run.id.toList ++ '/' :: tail)) := by
  obtain ⟨k, _, _, rfl⟩ := mem_keys_partObjects.mp h
  have digits : ∀ c, c.isDigit = false → c ∉ Text.zeroPadded 5 k := fun c hc h => by
    rw [Text.isDigit_of_mem_zeroPadded h] at hc
    cases hc
  refine ⟨"part-".toList ++ (Text.zeroPadded 5 k ++ ".jsonl".toList), ?_, ?_, ?_⟩
  · simp [digits '/' (by decide)]
  · simp [digits '=' (by decide)]
  · rw [partKey_toList, keyPrefix_toList]
    simp

/-- The segment of a key is found in one place only. -/
theorem segment_unique {before part after tail : List Char} (clean : '/' ∉ tail)
    (last : '=' ∉ tail)
    (h : before ++ ("run=".toList ++ (part ++ '/' :: after)) =
      run.partition.toList ++ ("run=".toList ++ (run.id.toList ++ '/' :: tail))) :
    part = run.id.toList := by
  have slash : '/' ∉ run.id.toList := not_mem_id run (by decide)
  have equals : '=' ∉ run.id.toList ++ '/' :: tail := by
    simp [not_mem_id run (by decide : isRunIdChar '=' = false), last]
  have h : (before ++ ['r', 'u', 'n']) ++ '=' :: (part ++ '/' :: after) =
      (run.partition.toList ++ ['r', 'u', 'n']) ++ '=' :: (run.id.toList ++ '/' :: tail) := by
    simpa using h
  rcases append_cons_split h equals with ⟨_, same⟩ | ⟨middle, earlier⟩
  · rcases append_cons_split same clean with ⟨rfl, _⟩ | ⟨middle, longer⟩
    · rfl
    · exact absurd (longer ▸ List.mem_append_right _ List.mem_cons_self) slash
  · have earlier : (before ++ ['r']) ++ 'u' :: ('n' :: '=' :: middle) =
        (run.partition.toList ++ ['r']) ++ 'u' :: ['n'] := by
      simpa using earlier.symm
    rcases append_cons_split earlier (by decide) with ⟨_, same⟩ | ⟨middle, hpartition⟩
    · cases same
    · have hu : 'u' ∈ run.partition.toList ++ ['r'] :=
        hpartition ▸ List.mem_append_right _ List.mem_cons_self
      have absent : 'u' ∉ run.partition.toList := not_mem_partition (by decide) (by decide) run.dataset run.runDate
      simp [absent] at hu

/-- A key of one run is selected for another exactly when the id of the one fits that of
the other. -/
theorem selects_part_iff (h : key ∈ second.parts) :
    selects first.id key = true ↔ Sql.Fits first.id.toList second.id.toList := by
  rw [selects_iff (not_mem_id first (by decide))]
  obtain ⟨tail, clean, last, hkey⟩ := exists_tail_of_mem_parts h
  constructor
  · rintro ⟨before, part, after, hsplit, fits⟩
    rwa [segment_unique clean last (hsplit.symm.trans hkey)] at fits
  · exact fun fits => ⟨_, _, _, hkey, fits⟩

/-- Every run stages a part. -/
theorem parts_ne_nil (run : PipelineRun Line) : run.parts ≠ [] := by
  intro h
  have bodies : run.objects.map Prod.snd = stagedBodies run.records run.chunkRows :=
    map_snd_partObjects _ _ _
  rw [List.map_eq_nil_iff.mp h, stagedBodies] at bodies
  split at bodies
  · cases bodies
  · rename_i nonempty
    rw [← bodies] at nonempty
    exact nonempty rfl

/-- The load history of a run next to another one: it has the files of the run, none of
the other, and so the counts of the run. -/
structure Separated (first second : PipelineRun Line) : Prop where
  own : ∀ key ∈ first.parts, selects first.id key = true
  other : ∀ key ∈ second.parts, selects first.id key = false
  counted : ∀ history : List LoadRecord,
    (∀ r ∈ history, r.fileName ∈ first.parts ∨ r.fileName ∈ second.parts) →
      copyHistoryForRun history first.id =
        parseCopyResult ((history.filter fun r => r.fileName ∈ first.parts).map LoadRecord.cells)

/-- The load history keeps another run out exactly when the other id is not the run's own
with some underscores replaced by other characters. -/
theorem separates_iff (first second : PipelineRun Line) :
    Separated first second ↔ ¬Sql.Fits first.id.toList second.id.toList := by
  constructor
  · intro separated fits
    obtain ⟨key, hkey⟩ := List.exists_mem_of_ne_nil _ (parts_ne_nil second)
    have selected := (selects_part_iff hkey).mpr fits
    rw [separated.other key hkey] at selected
    cases selected
  · intro distinct
    have own : ∀ key ∈ first.parts, selects first.id key = true :=
      fun key hkey => (selects_part_iff hkey).mpr (.refl _)
    have other : ∀ key ∈ second.parts, selects first.id key = false := fun key hkey =>
      Bool.eq_false_iff.mpr fun selected => distinct ((selects_part_iff hkey).mp selected)
    refine ⟨own, other, fun history staged => ?_⟩
    have kept : history.filter (fun r => selects first.id r.fileName) =
        history.filter fun r => r.fileName ∈ first.parts := by
      refine List.filter_congr fun r hr => ?_
      rcases staged r hr with hfirst | hsecond
      · rw [own _ hfirst, decide_eq_true hfirst]
      · rw [other _ hsecond, decide_eq_false fun hfirst => ?_]
        have both := own _ hfirst
        rw [other _ hsecond] at both
        cases both
    rw [copyHistoryForRun, kept]

/-- A full run of the payments with one record. -/
def sampleRun (id : String) (usable : sanitizeRunId id = .ok id) : PipelineRun Nat where
  dataset := .payments
  runDate := .sample
  runId := id
  id := id
  usable := usable
  snapshotType := snapshotFull
  known := by decide
  records := [0]
  chunkRows := 1
  chunked := by decide

/-- Two run ids that differ where one has an underscore: nothing of the first run is
loaded, and it reconciles with the file of the second. -/
theorem underscore_not_separated :
    let first := sampleRun "nightly_1" (by decide)
    let second := sampleRun "nightly-1" (by decide)
    let history := second.parts.map fun key => loadedFile key [0]
    first.id ≠ second.id ∧ (∀ key ∈ second.parts, selects first.id key = true) ∧
      (∀ r ∈ history, r.fileName ∉ first.parts) ∧
        reconcileSnapshot first.parts.length first.records.length
          (copyHistoryForRun history first.id) snapshotFull false = .ok () := by
  decide +kernel

end PaymentsPlatform.Snowflake.CopyHistory
