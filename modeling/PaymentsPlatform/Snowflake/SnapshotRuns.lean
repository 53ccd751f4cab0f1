import PaymentsPlatform.Snowflake.Staging
import PaymentsPlatform.Sql.Merge

/-!
# The snapshot control table

The completion state of `snowflake_etl/src/load_to_snowflake.py`: reading back what a
COPY did, reconciling it with what staging wrote, and the two statements that write
`RAW.SNAPSHOT_RUNS`, an upserting registration and a write-once completion.
`CURRENT_TIMESTAMP()` is the argument `now`.

`registerSnapshotRun_eq` and `completeSnapshotRun` itself describe the table row by
row; nothing later unfolds the `MERGE`.
-/

namespace PaymentsPlatform.Snowflake

/-- A value of a result row, as the driver hands it to Python. -/
inductive Cell where
  | null
  | bool (b : Bool)
  | int (n : Int)
  | text (s : String)
  | other (shown : String)
  deriving DecidableEq, Repr

/-- A cell as text. -/
def Cell.str : Cell → String
  | .null => "None"
  | .bool b => if b then "True" else "False"
  | .int n => toString n
  | .text s => s
  | .other shown => shown

/-- The value of an `int`; `bool` is a subclass of it. -/
def Cell.int? : Cell → Option Int
  | .bool b => some (if b then 1 else 0)
  | .int n => some n
  | _ => none

/-- What a COPY INTO did, per file and in total. -/
structure CopyOutcome where
  files : List String
  rowsLoaded : Int
  skipped : List String
  deriving DecidableEq, Repr

def CopyOutcome.fileCount (o : CopyOutcome) : Nat := o.files.length

/-- `str.upper` on one character, as far as the result can be one ASCII letter. -/
def upperChar (c : Char) : Char :=
  if c.isLower then c.toUpper
  else if c = Char.ofNat 0x17F then 'S'
  else if c = Char.ofNat 0x131 then 'I'
  else c

/-- The status of a file that COPY passed over, in any case. -/
def isLoadSkipped (status : Cell) : Bool :=
  status ≠ .null && status.str.toList.map upperChar == "LOAD_SKIPPED".toList

/-- The loop body of `parse_copy_result`. -/
def readCopyRow (o : CopyOutcome) : List Cell → CopyOutcome
  | [] => o
  | name :: rest =>
      { files := o.files ++ [name.str]
        skipped := if (rest[0]?).any isLoadSkipped then o.skipped ++ [name.str] else o.skipped
        rowsLoaded := o.rowsLoaded + ((rest[2]?).bind Cell.int?).getD 0 }

/-- One row per source file: name, status, rows parsed, rows loaded. -/
def parseCopyResult (rows : List (List Cell)) : CopyOutcome :=
  rows.foldl readCopyRow { files := [], rowsLoaded := 0, skipped := [] }

/-- Why a run stays incomplete. -/
inductive SnapshotIncomplete where
  | skipped (count : Nat) (first : List String)
  | noHistory (expectedParts : Int)
  | parts (expectedParts : Int) (reported : Nat)
  | rows (expectedRows loaded : Int)
  | emptyFull
  deriving DecidableEq, Repr

def snapshotFull : String := "full"
def snapshotWindow : String := "window"

def reconcileSnapshot (expectedParts expectedRows : Int) (outcome : CopyOutcome)
    (snapshotType : String) (allowEmpty : Bool) : Except SnapshotIncomplete Unit :=
  if outcome.skipped ≠ [] then
    .error (.skipped outcome.skipped.length (outcome.skipped.take 5))
  else if expectedParts ≠ 0 ∧ outcome.fileCount = 0 then .error (.noHistory expectedParts)
  else if (outcome.fileCount : Int) < expectedParts then
    .error (.parts expectedParts outcome.fileCount)
  else if outcome.rowsLoaded < expectedRows then
    .error (.rows expectedRows outcome.rowsLoaded)
  else if snapshotType = snapshotFull ∧ expectedRows = 0 ∧ allowEmpty = false then
    .error .emptyFull
  else .ok ()

/-- A row of `RAW.SNAPSHOT_RUNS`. The columns of the registration are never NULL; the
others are until the run is completed. -/
structure SnapshotRun where
  dataset : String
  runId : String
  runDate : Date
  snapshotType : String
  expectedParts : Int
  expectedRows : Int
  loadedParts : Option Int
  loadedRows : Option Int
  stagedAt : Int
  loadedAt : Option Int
  completedAt : Option Int
  deriving DecidableEq, Repr

/-- The identity of a staging run. -/
def SnapshotRun.key (r : SnapshotRun) : String × String := (r.dataset, r.runId)

/-- The arguments of `register_snapshot_run`. -/
structure Registration where
  dataset : String
  runId : String
  runDate : Date
  snapshotType : String
  expectedParts : Int
  expectedRows : Int
  deriving DecidableEq, Repr

def Registration.key (a : Registration) : String × String := (a.dataset, a.runId)

/-- What `register_snapshot_run` raises. -/
inductive RegistrationError where
  | snapshotType (given : String)
  | mergeCardinality
  deriving DecidableEq, Repr

/-- The row after a registration that finds it. -/
def SnapshotRun.reregister (r : SnapshotRun) (a : Registration) (now : Int) : SnapshotRun :=
  { r with runDate := a.runDate, snapshotType := a.snapshotType, expectedParts := a.expectedParts,
           expectedRows := a.expectedRows, stagedAt := now }

/-- The row a registration inserts. -/
def Registration.newRun (a : Registration) (now : Int) : SnapshotRun :=
  { dataset := a.dataset, runId := a.runId, runDate := a.runDate, snapshotType := a.snapshotType,
    expectedParts := a.expectedParts, expectedRows := a.expectedRows, loadedParts := none,
    loadedRows := none, stagedAt := now, loadedAt := none, completedAt := none }

/-- The `MERGE` of a registration. -/
def registrationMerge (now : Int) : Sql.Merge SnapshotRun Registration where
  on t s := (Sql.eq (some t.dataset) (some s.dataset)).and (Sql.eq (some t.runId) (some s.runId))
  whenMatched := [(fun _ _ => some true, fun t s => some (t.reregister s now))]
  whenNotMatched := [(fun _ => some true, fun s => s.newRun now)]

def registerSnapshotRun (table : List SnapshotRun) (a : Registration) (now : Int) :
    Except RegistrationError (List SnapshotRun) :=
  if a.snapshotType ∉ [snapshotFull, snapshotWindow] then .error (.snapshotType a.snapshotType)
  else
    match (registrationMerge now).exec table [a] with
    | some table => .ok table
    | none => .error .mergeCardinality

/-- The row after its completion. -/
def SnapshotRun.complete (r : SnapshotRun) (outcome : CopyOutcome) (now : Int) : SnapshotRun :=
  { r with loadedParts := some outcome.fileCount, loadedRows := some outcome.rowsLoaded,
           loadedAt := some now, completedAt := some now }

/-- The `UPDATE ... WHERE ... completed_at IS NULL` of a completion. -/
def completeSnapshotRun (table : List SnapshotRun) (key : String × String)
    (outcome : CopyOutcome) (now : Int) : List SnapshotRun :=
  table.map fun r =>
    if r.key = key ∧ r.completedAt = none then r.complete outcome now else r

/-- The table after a registration that is accepted. -/
def registered (table : List SnapshotRun) (a : Registration) (now : Int) : List SnapshotRun :=
  table.map (fun r => if r.key = a.key then r.reregister a now else r) ++
    if table.any fun r => r.key = a.key then [] else [a.newRun now]

variable {table : List SnapshotRun} {a : Registration} {now : Int} {r : SnapshotRun}
variable {key : String × String} {outcome : CopyOutcome}

@[simp] theorem SnapshotRun.key_reregister (same : r.key = a.key) :
    (r.reregister a now).key = a.key := same

@[simp] theorem SnapshotRun.key_complete : (r.complete outcome now).key = r.key := rfl

@[simp] theorem Registration.key_newRun : (a.newRun now).key = a.key := rfl

private theorem registrationMerge_pairs :
    (registrationMerge now).pairs r a = decide (r.key = a.key) := by
  rw [Bool.eq_iff_iff]
  simp [Sql.Merge.pairs, registrationMerge, Sql.eq, SnapshotRun.key, Registration.key]

private theorem registrationMerge_applyMatched :
    (registrationMerge now).applyMatched r a = some (r.reregister a now) := rfl

private theorem registrationMerge_insertFor :
    (registrationMerge now).insertFor a = some (a.newRun now) := rfl

/-- A registration with a known type is accepted; one with another type is refused and
writes nothing. -/
theorem registerSnapshotRun_eq (table : List SnapshotRun) (a : Registration) (now : Int) :
    registerSnapshotRun table a now =
      if a.snapshotType ∈ [snapshotFull, snapshotWindow] then .ok (registered table a now)
      else .error (.snapshotType a.snapshotType) := by
  unfold registerSnapshotRun
  by_cases known : a.snapshotType ∈ [snapshotFull, snapshotWindow]
  · rw [if_neg (not_not.mpr known), if_pos known]
    have single : ¬(table.any fun r =>
        decide (1 < [a].countP ((registrationMerge now).pairs r))) = true := by
      rw [List.any_eq_true]
      rintro ⟨r, _, hr⟩
      have := List.countP_le_length (p := (registrationMerge now).pairs r) (l := [a])
      simp only [decide_eq_true_eq, List.length_singleton] at hr this
      omega
    have updated : table.filterMap ((registrationMerge now).targetRow [a]) =
        table.map fun r => if r.key = a.key then r.reregister a now else r := by
      rw [← List.filterMap_eq_map]
      apply List.filterMap_congr
      intro r _
      by_cases same : r.key = a.key
      · simp [Sql.Merge.targetRow, registrationMerge_pairs, registrationMerge_applyMatched, same]
      · simp [Sql.Merge.targetRow, registrationMerge_pairs, same]
    have inserted : ([a].filter fun s => !table.any fun r =>
        (registrationMerge now).pairs r s).filterMap (registrationMerge now).insertFor =
          if table.any fun r => r.key = a.key then [] else [a.newRun now] := by
      simp only [registrationMerge_pairs]
      cases hany : table.any fun r => decide (r.key = a.key) <;>
        simp [hany, registrationMerge_insertFor]
    rw [Sql.Merge.exec, if_neg single, updated, inserted]
    rfl
  · rw [if_pos known, if_neg known]

theorem mem_registered : r ∈ registered table a now ↔
    (r ∈ table ∧ r.key ≠ a.key) ∨
      (∃ old ∈ table, old.key = a.key ∧ r = old.reregister a now) ∨
        ((∀ old ∈ table, old.key ≠ a.key) ∧ r = a.newRun now) := by
  rw [registered, List.mem_append, List.mem_map, ← or_assoc]
  refine or_congr ?_ ?_
  · constructor
    · rintro ⟨old, hold, rfl⟩
      by_cases same : old.key = a.key
      · exact .inr ⟨old, hold, same, if_pos same⟩
      · exact .inl (by rw [if_neg same]; exact ⟨hold, same⟩)
    · rintro (⟨hr, other⟩ | ⟨old, hold, same, rfl⟩)
      · exact ⟨r, hr, if_neg other⟩
      · exact ⟨old, hold, if_pos same⟩
  · by_cases found : ∃ old ∈ table, old.key = a.key
    · have hany : table.any (fun r => decide (r.key = a.key)) = true := by simpa using found
      simp only [hany, if_true, List.not_mem_nil, false_iff, not_and]
      obtain ⟨old, hold, same⟩ := found
      exact fun absent => absurd same (absent old hold)
    · have hany : table.any (fun r => decide (r.key = a.key)) = false := by
        simpa using found
      push Not at found
      simp only [hany, Bool.false_eq_true, if_false, List.mem_singleton]
      exact ⟨fun h => ⟨found, h⟩, fun h => h.2⟩

theorem mem_completeSnapshotRun : r ∈ completeSnapshotRun table key outcome now ↔
    (r ∈ table ∧ ¬(r.key = key ∧ r.completedAt = none)) ∨
      ∃ old ∈ table, old.key = key ∧ old.completedAt = none ∧ r = old.complete outcome now := by
  rw [completeSnapshotRun, List.mem_map]
  constructor
  · rintro ⟨old, hold, rfl⟩
    by_cases open_ : old.key = key ∧ old.completedAt = none
    · exact .inr ⟨old, hold, open_.1, open_.2, if_pos open_⟩
    · exact .inl (by rw [if_neg open_]; exact ⟨hold, open_⟩)
  · rintro (⟨hr, closed⟩ | ⟨old, hold, same, incomplete, rfl⟩)
    · exact ⟨r, hr, if_neg closed⟩
    · exact ⟨old, hold, if_pos ⟨same, incomplete⟩⟩

/-- Completing a run that is not open changes nothing. -/
theorem completeSnapshotRun_eq_self (closed : ∀ r ∈ table, r.key = key → r.completedAt ≠ none) :
    completeSnapshotRun table key outcome now = table := by
  rw [completeSnapshotRun]
  exact (List.map_congr_left fun r hr => if_neg fun ⟨same, open_⟩ => closed r hr same open_).trans
    (List.map_id table)

/-- Registrations keep one row for a run. -/
theorem nodup_keys_registered (nodup : (table.map SnapshotRun.key).Nodup) :
    ((registered table a now).map SnapshotRun.key).Nodup := by
  have kept : (table.map fun r => if r.key = a.key then r.reregister a now else r).map
      SnapshotRun.key = table.map SnapshotRun.key := by
    rw [List.map_map]
    apply List.map_congr_left
    intro r _
    by_cases same : r.key = a.key
    · simp [same]
    · simp [same]
  rw [registered, List.map_append, kept]
  cases hany : table.any fun r => decide (r.key = a.key) with
  | true => simpa using nodup
  | false =>
      rw [List.any_eq_false] at hany
      refine List.nodup_append.mpr ⟨nodup, by simp, ?_⟩
      intro key hkey other hother
      obtain ⟨r, hr, rfl⟩ := List.mem_map.mp hkey
      simp only [Bool.false_eq_true, if_false, List.map_cons, List.map_nil, List.mem_singleton,
        Registration.key_newRun] at hother
      rw [hother]
      simpa using hany r hr

/-- So do completions. -/
theorem keys_completeSnapshotRun :
    (completeSnapshotRun table key outcome now).map SnapshotRun.key =
      table.map SnapshotRun.key := by
  rw [completeSnapshotRun, List.map_map]
  apply List.map_congr_left
  intro r _
  by_cases open_ : r.key = key ∧ r.completedAt = none <;> simp [open_]

/-- A computation behind a refusal. -/
theorem ite_error_eq_ok {ε α : Type} {p : Prop} [Decidable p] {e : ε} {rest : Except ε α} {a : α} :
    (if p then .error e else rest) = .ok a ↔ ¬p ∧ rest = .ok a := by
  split
  · rename_i refused
    exact iff_of_false (by rintro ⟨⟩) fun h => h.1 refused
  · rename_i passed
    exact (and_iff_right passed).symm

/-- A reconciliation passes when none of the refusals applies. -/
theorem reconcileSnapshot_eq_ok {expectedParts expectedRows : Int} {snapshotType : String}
    {allowEmpty : Bool} :
    reconcileSnapshot expectedParts expectedRows outcome snapshotType allowEmpty = .ok () ↔
      outcome.skipped = [] ∧ ¬(expectedParts ≠ 0 ∧ outcome.fileCount = 0) ∧
        expectedParts ≤ outcome.fileCount ∧ expectedRows ≤ outcome.rowsLoaded ∧
          ¬(snapshotType = snapshotFull ∧ expectedRows = 0 ∧ allowEmpty = false) := by
  rw [reconcileSnapshot, ite_error_eq_ok, ite_error_eq_ok, ite_error_eq_ok, ite_error_eq_ok,
    ite_error_eq_ok, Int.not_lt, Int.not_lt, ne_eq, not_not, and_iff_left (rfl : _ = Except.ok ())]

/-- Then it saw everything that was expected. -/
theorem of_reconcileSnapshot {expectedParts expectedRows : Int} {snapshotType : String}
    {allowEmpty : Bool}
    (h : reconcileSnapshot expectedParts expectedRows outcome snapshotType allowEmpty = .ok ()) :
    outcome.skipped = [] ∧ expectedParts ≤ outcome.fileCount ∧
      expectedRows ≤ outcome.rowsLoaded := by
  obtain ⟨unskipped, _, parts, rows, _⟩ := reconcileSnapshot_eq_ok.mp h
  exact ⟨unskipped, parts, rows⟩

end PaymentsPlatform.Snowflake
