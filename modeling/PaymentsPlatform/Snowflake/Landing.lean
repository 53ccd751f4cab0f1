import PaymentsPlatform.Snowflake.StgPayments

/-!
# Landing staged files in RAW

Runs of `stage_dataset` put their part objects one after the other, interleaved with
each other and with `COPY INTO` statements, each of which lands the files of one date
partition that are not landed yet, or fails and leaves RAW as it is. A part key says
which dataset and which run it belongs to, so the landed rows of a run are made of
lines of the run, and the load history counts exactly these rows (`Landed`).
-/

namespace PaymentsPlatform.Snowflake

/-- The keys of `RAW_TABLES`; every dataset has a landing table of its own. -/
inductive Dataset where
  | fxRates
  | payments
  deriving DecidableEq, Repr

def Dataset.name : Dataset → String
  | .fxRates => "fx_rates"
  | .payments => "payments"

def Dataset.rawTable : Dataset → String
  | .fxRates => "RAW.RAW_FX_RATES"
  | .payments => "RAW.RAW_PAYMENTS"

theorem Dataset.name_injective : Function.Injective Dataset.name := by
  intro d d' h
  cases d <;> cases d' <;> first | rfl | exact absurd h (by decide)

/-- One run: the arguments of `stage_dataset`, none of which makes it raise, and the
kind of snapshot it is registered as. -/
structure PipelineRun (Line : Type) where
  dataset : Dataset
  runDate : Date
  runId : String
  id : String
  usable : sanitizeRunId runId = .ok id
  snapshotType : String
  known : snapshotType ∈ [snapshotFull, snapshotWindow]
  records : List Line
  chunkRows : Int
  chunked : 1 ≤ chunkRows

/-- Runs that are told apart by dataset and run id. -/
structure Plan (ι Line : Type) where
  run : ι → PipelineRun Line
  distinct : Function.Injective fun i => ((run i).dataset, (run i).id)

/-- A row of `COPY_HISTORY`. -/
structure LoadRecord where
  fileName : String
  status : Cell
  rowParsed : Cell
  rowCount : Int
  deriving DecidableEq, Repr

/-- The columns in the order `parse_copy_result` expects. -/
def LoadRecord.cells (r : LoadRecord) : List Cell :=
  [.text r.fileName, r.status, r.rowParsed, .int r.rowCount]

/-- `copy_history_for_run` when its query returns exactly the load records of the files of
the run; `CopyHistory` has the query itself. -/
def copyHistoryForRun (history : List LoadRecord) (runId : String) : CopyOutcome :=
  parseCopyResult
    ((history.filter fun r => runSegment r.fileName = some runId).map LoadRecord.cells)

variable {ι Line : Type}

namespace PipelineRun

def partition (run : PipelineRun Line) : String :=
  partitionPrefix defaultPrefix run.dataset.name run.runDate

def keyPrefix (run : PipelineRun Line) : String := run.partition ++ "run=" ++ run.id ++ "/"

/-- The objects the run puts, in order. -/
def objects (run : PipelineRun Line) : List (String × List Line) :=
  stagedObjects run.keyPrefix run.records run.chunkRows

def parts (run : PipelineRun Line) : List String := run.objects.map Prod.fst

/-- The lines of a part. -/
def body (run : PipelineRun Line) (key : String) : List Line :=
  ((store ∅ run.objects).lookup key).getD []

end PipelineRun

/-- The stores of the pipeline: the bucket, with the number of objects each run has put;
for each landing table its rows, the files loaded into it and its load history; and
the control table. -/
structure Warehouse (ι Line : Type) where
  objects : Bucket Line
  staged : ι → Nat
  raw : Dataset → List (RawRow Line)
  loadedFiles : Dataset → List String
  history : Dataset → List LoadRecord
  table : List SnapshotRun

/-- Nothing is staged, landed or registered. -/
def Warehouse.init : Warehouse ι Line where
  objects := ∅
  staged _ := 0
  raw _ := []
  loadedFiles _ := []
  history _ := []
  table := []

/-- The load record of a file. -/
def loadedFile (key : String) (body : List Line) : LoadRecord :=
  { fileName := key, status := .text "Loaded", rowParsed := .int body.length,
    rowCount := body.length }

/-- The load record of a file, its status and its parsed rows when the load fails. -/
def failedLoad (report : String × Cell × Cell) : LoadRecord :=
  { fileName := report.1, status := report.2.1, rowParsed := report.2.2, rowCount := 0 }

/-- The rows of one file. -/
def landedRows (now : Int) (key : String) (body : List Line) : List (RawRow Line) :=
  body.map fun line => { raw := line, sourceFile := key, loadedAt := now }

namespace Warehouse

/-- The next put of a run. -/
def putNext [DecidableEq ι] (plan : Plan ι Line) (s : Warehouse ι Line) (i : ι) :
    Warehouse ι Line :=
  match (plan.run i).objects[s.staged i]? with
  | none => s
  | some (key, body) =>
      { s with
        objects := s.objects.insert key body
        staged := Function.update s.staged i (s.staged i + 1) }

/-- The files of a partition that are not loaded yet. -/
def newFiles (s : Warehouse ι Line) (d : Dataset) (runDate : Date) : List String :=
  s.objects.keys.filter fun key =>
    (partitionPrefix defaultPrefix d.name runDate).toList <+: key.toList ∧ key ∉ s.loadedFiles d

/-- The content of an object. -/
def bodyOf (s : Warehouse ι Line) (key : String) : List Line := (s.objects.lookup key).getD []

/-- A `COPY INTO` that succeeds. -/
def copyInto (s : Warehouse ι Line) (d : Dataset) (runDate : Date) (now : Int) : Warehouse ι Line :=
  let files := s.newFiles d runDate
  { s with
    raw := Function.update s.raw d
      (s.raw d ++ files.flatMap fun key => landedRows now key (s.bodyOf key))
    loadedFiles := Function.update s.loadedFiles d (s.loadedFiles d ++ files)
    history := Function.update s.history d
      (s.history d ++ files.map fun key => loadedFile key (s.bodyOf key)) }

/-- A `COPY INTO` that fails; the history reports what it likes about it, except rows. -/
def copyFails (s : Warehouse ι Line) (d : Dataset) (reports : List (String × Cell × Cell)) :
    Warehouse ι Line :=
  { s with
    history := Function.update s.history d (s.history d ++ reports.map failedLoad) }

section Fields

@[simp] theorem raw_putNext [DecidableEq ι] (plan : Plan ι Line) (s : Warehouse ι Line) (i : ι) :
    (s.putNext plan i).raw = s.raw := by
  unfold putNext
  split <;> rfl

@[simp] theorem table_putNext [DecidableEq ι] (plan : Plan ι Line) (s : Warehouse ι Line) (i : ι) :
    (s.putNext plan i).table = s.table := by
  unfold putNext
  split <;> rfl

variable (s : Warehouse ι Line) (d : Dataset) (runDate : Date) (now : Int)
variable (reports : List (String × Cell × Cell))

theorem raw_copyInto : (s.copyInto d runDate now).raw = Function.update s.raw d (s.raw d ++
    (s.newFiles d runDate).flatMap fun key => landedRows now key (s.bodyOf key)) := rfl

/-- RAW only grows. -/
theorem raw_prefix_copyInto (d' : Dataset) : s.raw d' <+: (s.copyInto d runDate now).raw d' := by
  rw [raw_copyInto]
  by_cases same : d' = d
  · subst same
    rw [Function.update_self]
    exact List.prefix_append _ _
  · rw [Function.update_of_ne same]

theorem loadedFiles_copyInto : (s.copyInto d runDate now).loadedFiles =
    Function.update s.loadedFiles d (s.loadedFiles d ++ s.newFiles d runDate) := rfl

theorem history_copyInto : (s.copyInto d runDate now).history = Function.update s.history d
    (s.history d ++ (s.newFiles d runDate).map fun key => loadedFile key (s.bodyOf key)) := rfl

@[simp] theorem raw_copyFails : (s.copyFails d reports).raw = s.raw := rfl

theorem history_copyFails : (s.copyFails d reports).history =
    Function.update s.history d (s.history d ++ reports.map failedLoad) := rfl

end Fields

end Warehouse

section Keys

variable {d d' : Dataset} {runDate runDate' : Date} {key : String} {run : PipelineRun Line}
variable {c : Char}

theorem isRunIdChar_of_sanitized {runId id : String} (h : sanitizeRunId runId = .ok id) :
    id.toList ≠ [] ∧ ∀ c ∈ id.toList, isRunIdChar c = true := by
  unfold sanitizeRunId at h
  simp only at h
  split at h
  · cases h
  · rename_i usable
    obtain rfl := Except.ok.inj h
    rw [String.toList_ofList]
    refine ⟨usable, fun c hc => ?_⟩
    rcases Text.mem_replaceRuns (Text.mem_of_mem_strip hc) with rfl | ⟨_, hkept⟩
    · decide
    · simpa using hkept

/-- A partition is spelled with digits and the characters of these words. -/
theorem not_mem_partition {c : Char} (digit : c.isDigit = false)
    (other : c ∉ "raw/fx_rates/payments/dt=-".toList) (d : Dataset) (runDate : Date) :
    c ∉ (partitionPrefix defaultPrefix d.name runDate).toList := by
  have digits : ∀ width n, c ∉ Text.zeroPadded width n := fun width n h =>
    absurd (Text.isDigit_of_mem_zeroPadded h) (by simp [digit])
  simp only [String.reduceToList, List.mem_cons, List.not_mem_nil, or_false, not_or] at other
  cases d <;> simp [partitionPrefix, defaultPrefix, Date.isoformat, Date.isoformatChars,
    Dataset.name, digits, other]

theorem keyPrefix_toList (run : PipelineRun Line) : run.keyPrefix.toList =
    run.partition.toList ++ ("run=".toList ++ (run.id.toList ++ ['/'])) := by
  simp [PipelineRun.keyPrefix]

/-- The run of a file is read back from its name. -/
theorem runSegment_of_under (h : run.keyPrefix.toList <+: key.toList) :
    runSegment key = some run.id := by
  obtain ⟨rest, hrest⟩ := h
  obtain ⟨nonempty, clean⟩ := isRunIdChar_of_sanitized run.usable
  have hkey : key.toList =
      run.partition.toList ++ ("run=".toList ++ (run.id.toList ++ '/' :: rest)) := by
    rw [← hrest, keyPrefix_toList]
    simp
  have captured : Text.captureAfter "run=".toList (· == '/') key.toList = some run.id.toList := by
    have absent : 'u' ∉ run.partition.toList := not_mem_partition (by decide) (by decide) _ _
    rw [hkey]
    refine (Text.captureAfter_skip _ _ _ absent (by simp)).trans ?_
    refine Text.captureAfter_marker _ _ (by decide) nonempty (fun c hc => ?_) (by decide)
    by_contra slash
    have : c = '/' := by simpa using slash
    exact absurd (clean c hc) (by rw [this]; decide)
  rw [runSegment, captured, Option.map_some, String.ofList_toList]

/-- So is its dataset. -/
theorem dataset_of_under (h : (partitionPrefix defaultPrefix d.name runDate).toList <+: key.toList)
    (h' : (partitionPrefix defaultPrefix d'.name runDate').toList <+: key.toList) : d = d' := by
  obtain ⟨rest, hrest⟩ := h
  obtain ⟨rest', hrest'⟩ := h'
  have same := hrest.trans hrest'.symm
  cases d <;> cases d' <;> first | rfl | simp [partitionPrefix, defaultPrefix, Dataset.name] at same

end Keys

section Parts

variable {plan : Plan ι Line} {run : PipelineRun Line} {key : String} {body : List Line} {i j : ι}

theorem under_of_mem_parts (h : key ∈ run.parts) : run.keyPrefix.toList <+: key.toList := by
  obtain ⟨k, _, _, rfl⟩ := mem_keys_partObjects.mp h
  exact prefix_partKey _ k

theorem runSegment_of_mem_parts (h : key ∈ run.parts) : runSegment key = some run.id :=
  runSegment_of_under (under_of_mem_parts h)

theorem partition_of_mem_parts (h : key ∈ run.parts) :
    run.partition.toList <+: key.toList := by
  refine List.IsPrefix.trans ?_ (under_of_mem_parts h)
  rw [keyPrefix_toList]
  exact List.prefix_append _ _

theorem nodup_parts (run : PipelineRun Line) : (run.objects.map Prod.fst).Nodup :=
  nodup_keys_partObjects _ _ _

theorem body_of_mem (h : (key, body) ∈ run.objects) : run.body key = body := by
  rw [PipelineRun.body, lookup_store_of_mem (nodup_parts run) h]
  rfl

/-- The parts of a run hold its records. -/
theorem flatMap_body (run : PipelineRun Line) : run.parts.flatMap run.body = run.records := by
  refine (flatMap_lookup_store (nodup_parts run)).trans ?_
  rw [PipelineRun.objects, stagedObjects, map_snd_partObjects, flatten_stagedBodies]

/-- A part belongs to one run of the plan. -/
theorem Plan.owner_unique (hi : key ∈ (plan.run i).parts)
    (same : (plan.run i).dataset = (plan.run j).dataset)
    (hj : runSegment key = some (plan.run j).id) : i = j := by
  apply plan.distinct
  rw [runSegment_of_mem_parts hi] at hj
  exact Prod.ext same (Option.some.inj hj)

end Parts

section History

variable {history : List LoadRecord} {runId : String}

private theorem foldl_readCopyRow (records : List LoadRecord) (o : CopyOutcome) :
    ((records.map LoadRecord.cells).foldl readCopyRow o).rowsLoaded =
      o.rowsLoaded + (records.map LoadRecord.rowCount).sum := by
  induction records generalizing o with
  | nil => simp
  | cons r records ih =>
      rw [List.map_cons, List.foldl_cons, ih, List.map_cons, List.sum_cons, ← Int.add_assoc]
      rfl

private theorem rowsLoaded_eq_sum (history : List LoadRecord) (runId : String) :
    (copyHistoryForRun history runId).rowsLoaded =
      ((history.filter fun r => runSegment r.fileName = some runId).map
        LoadRecord.rowCount).sum := by
  rw [copyHistoryForRun, parseCopyResult, foldl_readCopyRow, Int.zero_add]

theorem rowsLoaded_append (xs ys : List LoadRecord) (runId : String) :
    (copyHistoryForRun (xs ++ ys) runId).rowsLoaded =
      (copyHistoryForRun xs runId).rowsLoaded + (copyHistoryForRun ys runId).rowsLoaded := by
  simp only [rowsLoaded_eq_sum, List.filter_append, List.map_append, List.sum_append]

/-- A failed load counts no rows. -/
theorem rowsLoaded_failedLoad (reports : List (String × Cell × Cell)) (runId : String) :
    (copyHistoryForRun (reports.map failedLoad) runId).rowsLoaded = 0 := by
  induction reports with
  | nil => rfl
  | cons report reports ih =>
      rw [List.map_cons, ← List.singleton_append, rowsLoaded_append, ih, rowsLoaded_eq_sum]
      by_cases own : runSegment report.1 = some runId <;> simp [failedLoad, own]

theorem rowsOfRun_append (runId : String) (xs ys : List (RawRow Line)) :
    rowsOfRun runId (xs ++ ys) = rowsOfRun runId xs ++ rowsOfRun runId ys :=
  List.filter_append _ _

/-- The rows of a run among those of some files are the rows of its files. -/
theorem rowsOfRun_landedRows (runId : String) (now : Int) (files : List String)
    (body : String → List Line) :
    rowsOfRun runId (files.flatMap fun key => landedRows now key (body key)) =
      (files.filter fun key => runSegment key = some runId).flatMap
        fun key => landedRows now key (body key) := by
  induction files with
  | nil => rfl
  | cons key files ih =>
      rw [List.flatMap_cons, rowsOfRun_append, ih]
      by_cases own : runSegment key = some runId
      · rw [List.filter_cons_of_pos (by simpa using own), List.flatMap_cons]
        congr 1
        exact List.filter_eq_self.mpr fun r hr => by
          obtain ⟨line, _, rfl⟩ := List.mem_map.mp hr
          simpa using own
      · rw [List.filter_cons_of_neg (by simpa using own)]
        refine List.append_left_eq_self.mpr ?_
        exact List.filter_eq_nil_iff.mpr fun r hr => by
          obtain ⟨line, _, rfl⟩ := List.mem_map.mp hr
          simpa using own

/-- A load counts the rows it lands. -/
theorem rowsLoaded_loadedFile (runId : String) (now : Int) (files : List String)
    (body : String → List Line) :
    (copyHistoryForRun (files.map fun key => loadedFile key (body key)) runId).rowsLoaded =
      (rowsOfRun runId (files.flatMap fun key => landedRows now key (body key))).length := by
  induction files with
  | nil => rfl
  | cons key files ih =>
      rw [List.map_cons, ← List.singleton_append, rowsLoaded_append, ih, rowsLoaded_eq_sum,
        rowsOfRun_landedRows, rowsOfRun_landedRows]
      by_cases own : runSegment key = some runId <;> simp [loadedFile, landedRows, own]

end History

@[simp] theorem map_raw_landedRows (now : Int) (key : String) (body : List Line) :
    (landedRows now key body).map RawRow.raw = body := by
  rw [landedRows, List.map_map]
  exact List.map_id body

/-- Everything that landed belongs to a run and is counted by the load history. -/
structure Landed (plan : Plan ι Line) (s : Warehouse ι Line) : Prop where
  stored : ∀ key body, s.objects.lookup key = some body → ∃ i, (key, body) ∈ (plan.run i).objects
  once : ∀ d, (s.loadedFiles d).Nodup
  owned : ∀ d, ∀ key ∈ s.loadedFiles d,
    ∃ i, (plan.run i).dataset = d ∧ key ∈ (plan.run i).parts
  rows : ∀ i, (rowsOfRun (plan.run i).id (s.raw (plan.run i).dataset)).map RawRow.raw =
    ((s.loadedFiles (plan.run i).dataset).filter fun key =>
      runSegment key = some (plan.run i).id).flatMap (plan.run i).body
  counted : ∀ d runId, (copyHistoryForRun (s.history d) runId).rowsLoaded =
    (rowsOfRun runId (s.raw d)).length

namespace Landed

variable {plan : Plan ι Line} {s : Warehouse ι Line} {d : Dataset} {runDate : Date} {i : ι}
variable {key : String} {now : Int}

theorem init (plan : Plan ι Line) : Landed plan Warehouse.init where
  stored key body h := by cases h
  once d := List.nodup_nil
  owned d key hkey := by cases hkey
  rows i := rfl
  counted d runId := rfl

/-- The landed rows of a run are some of its records, each as often as it was extracted. -/
theorem subperm (h : Landed plan s) (i : ι) :
    ((rowsOfRun (plan.run i).id (s.raw (plan.run i).dataset)).map RawRow.raw).Subperm
      (plan.run i).records := by
  have own : ((s.loadedFiles (plan.run i).dataset).filter fun key =>
      runSegment key = some (plan.run i).id) ⊆ (plan.run i).parts := by
    intro key hkey
    obtain ⟨hkey, segment⟩ := List.mem_filter.mp hkey
    obtain ⟨j, hj, hpart⟩ := h.owned _ key hkey
    exact plan.owner_unique hpart hj (of_decide_eq_true segment) ▸ hpart
  obtain ⟨files, hperm, hsub⟩ := List.Nodup.subperm ((h.once _).filter _) own
  rw [h.rows, ← flatMap_body]
  exact ⟨files.flatMap (plan.run i).body, hperm.flatMap_right _, hsub.flatMap _⟩

/-- A run of which as many rows landed as were extracted has landed. -/
theorem perm (h : Landed plan s) (whole : (plan.run i).records.length ≤
    (rowsOfRun (plan.run i).id (s.raw (plan.run i).dataset)).length) :
    ((rowsOfRun (plan.run i).id (s.raw (plan.run i).dataset)).map RawRow.raw).Perm
      (plan.run i).records :=
  (h.subperm i).perm_of_length_le (by rwa [List.length_map])

/-- A file a COPY picks belongs to a run of the dataset. -/
theorem of_mem_newFiles (h : Landed plan s) (hkey : key ∈ s.newFiles d runDate) :
    ∃ i, (plan.run i).dataset = d ∧ (key, s.bodyOf key) ∈ (plan.run i).objects := by
  obtain ⟨hkeys, hnew⟩ := List.mem_filter.mp hkey
  obtain ⟨under, _⟩ := of_decide_eq_true hnew
  obtain ⟨body, hbody⟩ := Option.isSome_iff_exists.mp (AList.lookup_isSome.mpr hkeys)
  obtain ⟨i, hobject⟩ := h.stored key body hbody
  have hpart : key ∈ (plan.run i).parts := List.mem_map_of_mem hobject
  refine ⟨i, dataset_of_under (partition_of_mem_parts hpart) under, ?_⟩
  rwa [Warehouse.bodyOf, hbody]

/-- The new files of a run hold what the run put. -/
private theorem bodyOf_newFiles (h : Landed plan s)
    (hkey : key ∈ (s.newFiles (plan.run i).dataset runDate).filter fun key =>
      runSegment key = some (plan.run i).id) : s.bodyOf key = (plan.run i).body key := by
  obtain ⟨hnew, segment⟩ := List.mem_filter.mp hkey
  obtain ⟨j, hj, hobject⟩ := h.of_mem_newFiles hnew
  obtain rfl := plan.owner_unique (List.mem_map_of_mem hobject) hj (of_decide_eq_true segment)
  exact (body_of_mem hobject).symm

theorem putNext [DecidableEq ι] (h : Landed plan s) (i : ι) : Landed plan (s.putNext plan i) := by
  unfold Warehouse.putNext
  split
  · exact h
  · rename_i key body hobject
    refine ⟨fun key' body' hlookup => ?_, h.once, h.owned, h.rows, h.counted⟩
    by_cases same : key' = key
    · subst same
      rw [AList.lookup_insert] at hlookup
      exact ⟨i, Option.some.inj hlookup ▸ List.mem_of_getElem? hobject⟩
    · rw [AList.lookup_insert_ne same] at hlookup
      exact h.stored key' body' hlookup

theorem copyFails (h : Landed plan s) (d : Dataset) (reports : List (String × Cell × Cell)) :
    Landed plan (s.copyFails d reports) := by
  refine ⟨h.stored, h.once, h.owned, h.rows, fun d' runId => ?_⟩
  by_cases same : d' = d
  · subst same
    rw [Warehouse.history_copyFails, Function.update_self, rowsLoaded_append,
      rowsLoaded_failedLoad, Int.add_zero]
    exact h.counted d' runId
  · have old := h.counted d' runId
    simpa only [Warehouse.history_copyFails, Warehouse.raw_copyFails,
      Function.update_of_ne same] using old

theorem copyInto (h : Landed plan s) (d : Dataset) (runDate : Date) (now : Int) :
    Landed plan (s.copyInto d runDate now) where
  stored := h.stored
  once d' := by
    by_cases same : d' = d
    · subst same
      rw [Warehouse.loadedFiles_copyInto, Function.update_self]
      refine List.Nodup.append (h.once d') (s.objects.keys_nodup.filter _) ?_
      intro key hold hnew
      exact (of_decide_eq_true (List.mem_filter.mp hnew).2).2 hold
    · simpa only [Warehouse.loadedFiles_copyInto, Function.update_of_ne same] using h.once d'
  owned d' key hkey := by
    by_cases same : d' = d
    · subst same
      rw [Warehouse.loadedFiles_copyInto, Function.update_self, List.mem_append] at hkey
      rcases hkey with hold | hnew
      · exact h.owned d' key hold
      · obtain ⟨i, hi, hobject⟩ := h.of_mem_newFiles hnew
        exact ⟨i, hi, List.mem_map_of_mem hobject⟩
    · rw [Warehouse.loadedFiles_copyInto, Function.update_of_ne same] at hkey
      exact h.owned d' key hkey
  rows i := by
    by_cases same : (plan.run i).dataset = d
    · subst same
      simp only [Warehouse.raw_copyInto, Warehouse.loadedFiles_copyInto, Function.update_self,
        rowsOfRun_append, rowsOfRun_landedRows, List.map_append, List.filter_append,
        List.flatMap_append, h.rows, List.map_flatMap, map_raw_landedRows]
      congr 1
      exact List.flatMap_congr fun key hkey => h.bodyOf_newFiles hkey
    · simpa only [Warehouse.raw_copyInto, Warehouse.loadedFiles_copyInto,
        Function.update_of_ne same] using h.rows i
  counted d' runId := by
    have old := h.counted d' runId
    by_cases same : d' = d
    · subst same
      rw [Warehouse.history_copyInto, Warehouse.raw_copyInto, Function.update_self,
        Function.update_self, rowsLoaded_append, rowsLoaded_loadedFile runId now, rowsOfRun_append,
        List.length_append, old, Int.natCast_add]
    · simpa only [Warehouse.raw_copyInto, Warehouse.history_copyInto,
        Function.update_of_ne same] using old

end Landed

end PaymentsPlatform.Snowflake
