import PaymentsPlatform.Snowflake.Landing
import PaymentsPlatform.Snowflake.Restaging

/-!
# The layout of the keys

Three pieces spell it out: `snapshot_prefix` and `stage_dataset` build the key of a part,
`copy_into_sql` of `snowflake_etl/src/load_to_snowflake.py` writes the location that is read
into the COPY (`fromLocation_copyIntoSql`), and `stg_payments` searches the key for the run.
A part lies at the location of its dataset and date and at no other one, and the run that is
found is the one that staged it (`layout_agrees`).
-/

namespace PaymentsPlatform.Snowflake

/-- The partition of a COPY: a date, or the text the DAG renders one to. -/
inductive PartitionDate where
  | date (d : Date)
  | text (s : String)

def PartitionDate.str : PartitionDate → String
  | .date d => d.isoformat
  | .text s => s

def defaultStageSchema : String := "RAW"

/-- A stage without a schema is that of `RAW`. -/
def qualifiedStage (stage : String) : String :=
  if '.' ∈ stage.toList then stage else defaultStageSchema ++ "." ++ stage

/-- The path below the stage. -/
def copyPath (pre dataset : String) (runDate : PartitionDate) : String :=
  pre ++ "/" ++ dataset ++ "/dt=" ++ runDate.str ++ "/"

def copyIntoSql (table stage dataset : String) (runDate : PartitionDate) (pre : String) : String :=
  let location := "@" ++ qualifiedStage stage ++ "/" ++ copyPath pre dataset runDate
  "COPY INTO " ++ table ++ " (raw, source_file)\n" ++
    "FROM (\n" ++
    "  SELECT $1, METADATA$FILENAME\n" ++
    "  FROM " ++ location ++ "\n" ++
    ")\n" ++
    "FILE_FORMAT = (TYPE = JSON STRIP_OUTER_ARRAY = FALSE)\n" ++
    "ON_ERROR = ABORT_STATEMENT"

/-- What a COPY reads from: the location is the rest of the line it starts on. -/
def fromLocation (sql : String) : List Char :=
  (sql.toList.dropWhile (· ≠ '@')).takeWhile (· ≠ '\n')

/-- The COPY of a dataset and date reads the objects of the stage that its location is a
prefix of. -/
def Under (stage : String) (d : Dataset) (runDate : Date) (key : String) : Prop :=
  fromLocation (copyIntoSql d.rawTable stage d.name (.date runDate) defaultPrefix) <+:
    ("@" ++ qualifiedStage stage ++ "/" ++ key).toList

/-- A key is read for one dataset and date only, on any stage with a name of one line, and its
rows belong to one run only. -/
structure ReadAs (d : Dataset) (runDate : Date) (id key : String) : Prop where
  copied : ∀ stage, '\n' ∉ stage.toList → ∀ d' runDate',
    Under stage d' runDate' key ↔ d' = d ∧ runDate' = runDate
  segment : runSegment key = some id

/-- The arguments of a run of a dataset. -/
def Dataset.stagedBy (d : Dataset) (runDate : Date) (runId : String) : RunArgs :=
  { dataset := d.name, runDate := runDate, runId := runId, pre := defaultPrefix }

section Location

variable {table stage dataset pre : String} {partitionDate : PartitionDate}

theorem not_mem_qualifiedStage (line : '\n' ∉ stage.toList) :
    '\n' ∉ (qualifiedStage stage).toList := by
  unfold qualifiedStage
  split
  · exact line
  · simp [defaultStageSchema, line]

/-- The location of a COPY is the path below the stage it qualifies. -/
theorem fromLocation_copyIntoSql (plain : '@' ∉ table.toList) (line : '\n' ∉ stage.toList)
    (path : '\n' ∉ (copyPath pre dataset partitionDate).toList) :
    fromLocation (copyIntoSql table stage dataset partitionDate pre) =
      '@' :: ((qualifiedStage stage).toList ++
        '/' :: (copyPath pre dataset partitionDate).toList) := by
  have inHead : ∀ c ∈ ("COPY INTO ".toList ++ table.toList ++ " (raw, source_file)\n".toList ++
      "FROM (\n".toList ++ "  SELECT $1, METADATA$FILENAME\n".toList ++ "  FROM ".toList),
      decide (c ≠ '@') = true := by
    intro c hc
    refine decide_eq_true ?_
    rintro rfl
    simp [plain] at hc
  have inLine : ∀ c ∈ '@' :: ((qualifiedStage stage).toList ++
      '/' :: (copyPath pre dataset partitionDate).toList), decide (c ≠ '\n') = true := by
    intro c hc
    refine decide_eq_true ?_
    rintro rfl
    simp [not_mem_qualifiedStage line, path] at hc
  have text : (copyIntoSql table stage dataset partitionDate pre).toList =
      ("COPY INTO ".toList ++ table.toList ++ " (raw, source_file)\n".toList ++
        "FROM (\n".toList ++ "  SELECT $1, METADATA$FILENAME\n".toList ++ "  FROM ".toList) ++
      ('@' :: ((qualifiedStage stage).toList ++ '/' ::
        (copyPath pre dataset partitionDate).toList) ++ '\n' :: (")\n".toList ++
          "FILE_FORMAT = (TYPE = JSON STRIP_OUTER_ARRAY = FALSE)\n".toList ++
            "ON_ERROR = ABORT_STATEMENT".toList)) := by
    unfold copyIntoSql
    simp only [String.toList_append, List.append_assoc, List.cons_append, String.reduceToList,
      List.nil_append]
  rw [fromLocation, text, List.dropWhile_append_of_pos inHead, List.cons_append,
    List.dropWhile_cons_of_neg (by decide), ← List.cons_append,
    List.takeWhile_append_of_pos inLine, List.takeWhile_cons_of_neg (by decide), List.append_nil]

end Location

variable {Line : Type} {d d' : Dataset} {runDate runDate' : Date} {runId id key stage : String}

/-- The path of a COPY is the partition that is staged. -/
theorem copyPath_date (d : Dataset) (runDate : Date) :
    copyPath defaultPrefix d.name (.date runDate) =
      partitionPrefix defaultPrefix d.name runDate := by
  rw [copyPath, partitionPrefix, PartitionDate.str]

theorem under_iff (line : '\n' ∉ stage.toList) : Under stage d runDate key ↔
    (partitionPrefix defaultPrefix d.name runDate).toList <+: key.toList := by
  have plain : '@' ∉ d.rawTable.toList := by cases d <;> decide
  have path : '\n' ∉ (copyPath defaultPrefix d.name (.date runDate)).toList := by
    rw [copyPath_date]
    exact not_mem_partition (by decide) (by decide) d runDate
  have location := fromLocation_copyIntoSql plain line path
  have object : ("@" ++ qualifiedStage stage ++ "/" ++ key).toList =
      '@' :: ((qualifiedStage stage).toList ++ '/' :: key.toList) := by simp
  rw [Under, location, object, List.cons_prefix_cons, List.prefix_append_right_inj,
    List.cons_prefix_cons, copyPath_date]
  simp only [true_and]

/-- No key has the dates of two partitions of a dataset. -/
theorem date_of_under (h : (partitionPrefix defaultPrefix d.name runDate).toList <+: key.toList)
    (h' : (partitionPrefix defaultPrefix d.name runDate').toList <+: key.toList) :
    runDate = runDate' := by
  obtain ⟨rest, hrest⟩ := h
  obtain ⟨rest', hrest'⟩ := h'
  have same := hrest.trans hrest'.symm
  simp only [partitionPrefix, Date.isoformat, String.toList_append, String.toList_ofList,
    List.append_assoc, List.append_cancel_left_eq] at same
  exact (Date.append_inj same).1

theorem toList_keyPrefix (runDate : Date) (runId : String) :
    ((d.stagedBy runDate runId).keyPrefix id).toList =
      (partitionPrefix defaultPrefix d.name runDate).toList ++
        ("run=".toList ++ (id.toList ++ ['/'])) := by
  simp [RunArgs.keyPrefix, Dataset.stagedBy]

theorem runSegment_partKey (usable : sanitizeRunId runId = .ok id) (runDate : Date)
    (index : Nat) :
    runSegment (partKey ((d.stagedBy runDate runId).keyPrefix id) index) = some id := by
  obtain ⟨nonempty, clean⟩ := isRunIdChar_of_sanitized usable
  rw [runSegment, partKey_toList, toList_keyPrefix]
  simp only [List.append_assoc, List.singleton_append]
  have absent : 'u' ∉ (partitionPrefix defaultPrefix d.name runDate).toList :=
    not_mem_partition (by decide) (by decide) d runDate
  have captured : Text.captureAfter "run=".toList (· == '/')
      ((partitionPrefix defaultPrefix d.name runDate).toList ++ ("run=".toList ++ (id.toList ++
        '/' :: ("part-".toList ++ (Text.zeroPadded 5 index ++ ".jsonl".toList))))) =
      some id.toList := by
    refine (Text.captureAfter_skip _ _ _ absent (by simp)).trans ?_
    refine Text.captureAfter_marker _ _ (by decide) nonempty (fun c hc => ?_) (by decide)
    by_contra slash
    have : c = '/' := by simpa using slash
    exact absurd (clean c hc) (by rw [this]; decide)
  rw [captured, Option.map_some, String.ofList_toList]

theorem readAs_partKey (usable : sanitizeRunId runId = .ok id) (runDate : Date) (index : Nat) :
    ReadAs d runDate id (partKey ((d.stagedBy runDate runId).keyPrefix id) index) where
  copied stage line d' runDate' := by
    have own : (partitionPrefix defaultPrefix d.name runDate).toList <+:
        (partKey ((d.stagedBy runDate runId).keyPrefix id) index).toList := by
      refine List.IsPrefix.trans ?_ (prefix_partKey _ index)
      rw [toList_keyPrefix]
      exact List.prefix_append _ _
    rw [under_iff line]
    constructor
    · intro h
      obtain rfl := dataset_of_under h own
      exact ⟨rfl, date_of_under h own⟩
    · rintro ⟨rfl, rfl⟩
      exact own
  segment := runSegment_partKey usable runDate index

/-- The rows of a file are those of its run. -/
theorem ReadAs.rowsOfRun (h : ReadAs d runDate id key) (id' : String) (now : Int)
    (body : List Line) : Snowflake.rowsOfRun id' (landedRows now key body) =
      if id' = id then landedRows now key body else [] := by
  have source : ∀ r ∈ landedRows now key body, r.sourceFile = key := by
    intro r hr
    obtain ⟨line, _, rfl⟩ := List.mem_map.mp hr
    rfl
  rw [Snowflake.rowsOfRun]
  split
  · rename_i same
    refine List.filter_eq_self.mpr fun r hr => ?_
    rw [source r hr, h.segment, same, decide_eq_true_eq]
  · rename_i other
    refine List.filter_eq_nil_iff.mpr fun r hr => ?_
    rw [source r hr, h.segment, decide_eq_true_eq, Option.some_inj]
    exact fun same => other same.symm

/-- Whatever an attempt to stage a run puts, and however it ends, every key is one of a part
of the run, is read by the COPY of its dataset and date alone, and lands rows of the run
alone; the run that is returned to be registered is the same one. -/
theorem layout_agrees (d : Dataset) (runDate : Date) (runId id : String)
    (usable : sanitizeRunId runId = .ok id) (bucket : Bucket Line) (a : Attempt Line) :
    (∀ index, ReadAs d runDate id (partKey ((d.stagedBy runDate runId).keyPrefix id) index)) ∧
      (∀ key ∈ (d.stagedBy runDate runId).afterAttempt bucket a, key ∉ bucket →
        ∃ index, key = partKey ((d.stagedBy runDate runId).keyPrefix id) index) ∧
      (∀ s s3, (d.stagedBy runDate runId).stage bucket a = .ok s s3 →
        s.runId = id ∧ ∀ key ∈ s.parts, ReadAs d runDate s.runId key) ∧
      ∀ key, ReadAs d runDate id key → ∀ id' now (body : List Line),
        rowsOfRun id' (landedRows now key body) =
          if id' = id then landedRows now key body else [] := by
  have hid : sanitizeRunId (d.stagedBy runDate runId).runId = .ok id := usable
  refine ⟨readAs_partKey usable runDate, fun key hkey new => ?_, fun s s3 h => ?_,
    fun key h => h.rowsOfRun⟩
  · rw [afterAttempt_eq hid, mem_store, mem_keys_partObjects] at hkey
    rcases hkey with old | ⟨index, _, _, rfl⟩
    · exact absurd old new
    · exact ⟨index, rfl⟩
  · obtain ⟨id', hid', _, rfl, _⟩ := stage_ok h
    obtain rfl : id' = id := Except.ok.inj (hid'.symm.trans hid)
    refine ⟨rfl, fun key hkey => ?_⟩
    obtain ⟨index, _, _, rfl⟩ := mem_keys_stagedObjects.mp hkey
    exact readAs_partKey usable runDate index

theorem layout_agrees_sample :
    ReadAs .payments .sample "manual__2026-09-04"
      (partKey ((Dataset.payments.stagedBy .sample "manual__2026-09-04").keyPrefix
        "manual__2026-09-04") 1) :=
  (layout_agrees .payments .sample "manual__2026-09-04" "manual__2026-09-04" (by decide) ∅
    shortAttempt).1 1

end PaymentsPlatform.Snowflake
