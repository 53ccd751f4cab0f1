import PaymentsPlatform.Snowflake.SnapshotRuns

/-!
# The staging model of payments

`snowflake_etl/dbt/models/staging/stg_payments.sql`: the rows of one run, the newest
completed full payments run, one row for every payment. The accessors of a VARIANT
(`raw:field::TYPE`) and `SHA2` are Snowflake's and enter as `VariantFunctions`, with
NULL for an absent field.
-/

namespace PaymentsPlatform.Snowflake

/-- The typed reads of a VARIANT, with the field they read; numbers are in units of
the last of two digits, timestamps in microseconds. -/
structure VariantFunctions (Line : Type) where
  integer : Line → String → Option Int
  number : Line → String → Option Int
  string : Line → String → Option String
  timestamp : Line → String → Option Int
  sha2 : String → String

/-- A row of a landing table: the JSON line, `METADATA$FILENAME` and the load time. -/
structure RawRow (Line : Type) where
  raw : Line
  sourceFile : String
  loadedAt : Int
  deriving DecidableEq, Repr

/-- A row of `stg_payments`. -/
structure StgPayment where
  paymentId : Option Int
  merchantId : Option Int
  shopperId : Option String
  amount : Option Int
  currency : Option String
  paymentMethod : Option String
  paymentStatus : Option String
  countryCode : Option String
  createdAt : Option Int
  updatedAt : Option Int
  deriving DecidableEq, Repr

/-- The completed full runs of the payments dataset. -/
def completedFull (table : List SnapshotRun) : List SnapshotRun :=
  table.filter fun r =>
    r.dataset = "payments" ∧ r.snapshotType = snapshotFull ∧ r.completedAt ≠ none

/-- `latest_snapshot`: the one that was completed last. -/
def latestSnapshot (table : List SnapshotRun) : Option SnapshotRun :=
  Sql.latestOf (fun _ => ()) (fun r => Sql.nullsFirst r.completedAt) (completedFull table) ()

/-- The run that a key names: what is behind its first `run=`, up to a slash. -/
def runSegment (sourceFile : String) : Option String :=
  (Text.captureAfter "run=".toList (· == '/') sourceFile.toList).map String.ofList

variable {Line : Type}

/-- The landed rows of one run. -/
def rowsOfRun (runId : String) (rawPayments : List (RawRow Line)) : List (RawRow Line) :=
  rawPayments.filter fun r => runSegment r.sourceFile = some runId

section Model

variable (vf : VariantFunctions Line)

/-- The columns of a landed row. -/
def stgPayment (line : Line) : StgPayment where
  paymentId := vf.integer line "payment_id"
  merchantId := vf.integer line "merchant_id"
  shopperId := (vf.integer line "shopper_id").map fun id => vf.sha2 (toString id)
  amount := vf.number line "amount"
  currency := vf.string line "currency"
  paymentMethod := vf.string line "payment_method"
  paymentStatus := vf.string line "payment_status"
  countryCode := vf.string line "country_code"
  createdAt := vf.timestamp line "created_at"
  updatedAt := vf.timestamp line "updated_at"

/-- `ORDER BY updated_at DESC, loaded_at DESC`; Snowflake sorts NULLs first here. -/
def versionKey (r : RawRow Line) : WithTop Int ×ₗ Int :=
  toLex (Sql.nullsFirst (vf.timestamp r.raw "updated_at"), r.loadedAt)

/-- The model: with no completed full run the comparison with the empty subquery is
UNKNOWN, and nothing is selected. -/
def stgPayments (table : List SnapshotRun) (rawPayments : List (RawRow Line)) :
    List StgPayment :=
  match latestSnapshot table with
  | none => []
  | some run =>
      (Sql.latestBy (fun r : RawRow Line => vf.integer r.raw "payment_id") (versionKey vf)
        (rowsOfRun run.runId rawPayments)).map fun r => stgPayment vf r.raw

end Model

variable {table : List SnapshotRun} {r : SnapshotRun}

theorem mem_completedFull : r ∈ completedFull table ↔ r ∈ table ∧ r.dataset = "payments" ∧
    r.snapshotType = snapshotFull ∧ r.completedAt ≠ none := by
  simp [completedFull]

theorem latestSnapshot_mem (h : latestSnapshot table = some r) : r ∈ completedFull table :=
  (Sql.latestOf_mem h).1

theorem latestSnapshot_eq_none : latestSnapshot table = none ↔ completedFull table = [] := by
  rw [latestSnapshot, Sql.latestOf_eq_none, List.eq_nil_iff_forall_not_mem]
  simp

/-- With distinct completion times the latest snapshot is the completed full payments
run that no other one was completed after. -/
theorem latestSnapshot_eq_some
    (distinct : ∀ x ∈ completedFull table, ∀ y ∈ completedFull table,
      x.completedAt = y.completedAt → x = y) :
    latestSnapshot table = some r ↔ r ∈ completedFull table ∧
      ∀ x ∈ completedFull table, Sql.nullsFirst x.completedAt ≤ Sql.nullsFirst r.completedAt := by
  constructor
  · intro h
    exact ⟨latestSnapshot_mem h, fun x hx => Sql.le_latestOf h hx rfl⟩
  · rintro ⟨hr, newest⟩
    refine Sql.latestOf_eq_some hr rfl (fun x hx _ => newest x hx) fun x hx _ same => ?_
    exact distinct x hx r hr (Sql.nullsFirst_inj.mp same)

/-- A registration that keeps the type of its run rewrites the completed runs in place. -/
theorem completedFull_registered {a : Registration} {now : Int}
    (keeps : ∀ r ∈ table, r.key = a.key → r.snapshotType = a.snapshotType) :
    completedFull (registered table a now) =
      (completedFull table).map fun r => if r.key = a.key then r.reregister a now else r := by
  have incomplete : (if table.any fun r => r.key = a.key then [] else [a.newRun now]).filter
      (fun r => decide (r.dataset = "payments" ∧ r.snapshotType = snapshotFull ∧
        r.completedAt ≠ none)) = [] := by
    cases table.any fun r => decide (r.key = a.key) <;> simp [Registration.newRun]
  rw [completedFull, registered, List.filter_append, incomplete, List.append_nil, List.filter_map,
    completedFull]
  congr 1
  refine List.filter_congr fun r hr => ?_
  by_cases same : r.key = a.key
  · simp [same, SnapshotRun.reregister, keeps r hr same]
  · simp [same]

theorem latestSnapshot_registered {a : Registration} {now : Int}
    (keeps : ∀ r ∈ table, r.key = a.key → r.snapshotType = a.snapshotType) :
    latestSnapshot (registered table a now) = (latestSnapshot table).map fun r =>
      if r.key = a.key then r.reregister a now else r := by
  rw [latestSnapshot, completedFull_registered keeps]
  refine Sql.latestOf_map _ (fun _ _ => rfl) fun r _ => ?_
  split <;> rfl

/-- Completing a run that is no full payments run completes no full payments run. -/
theorem completedFull_completeSnapshotRun {key : String × String} {outcome : CopyOutcome}
    {now : Int} (other : ∀ r ∈ table, r.key = key →
      ¬(r.dataset = "payments" ∧ r.snapshotType = snapshotFull)) :
    completedFull (completeSnapshotRun table key outcome now) = completedFull table := by
  rw [completeSnapshotRun, completedFull, List.filter_map, completedFull]
  have selected : table.filter ((fun r => decide (r.dataset = "payments" ∧
      r.snapshotType = snapshotFull ∧ r.completedAt ≠ none)) ∘ fun r =>
        if r.key = key ∧ r.completedAt = none then r.complete outcome now else r) =
      completedFull table := by
    refine List.filter_congr fun r hr => ?_
    by_cases hopen : r.key = key ∧ r.completedAt = none
    · have := other r hr hopen.1
      rw [Function.comp_apply, if_pos hopen]
      simpa [SnapshotRun.complete, hopen.2] using this
    · rw [Function.comp_apply, if_neg hopen]
  rw [selected]
  refine (List.map_congr_left fun r hr => if_neg fun hopen => ?_).trans (List.map_id _)
  exact (mem_completedFull.mp hr).2.2.2 hopen.2

section CurrentState

variable (vf : VariantFunctions Line)

/-- One row for each payment id of the lines, made of a line with the greatest
`updated_at`, and no other rows. -/
def CurrentState (lines : List Line) (rows : List StgPayment) : Prop :=
  ∀ k, (rows.filter (fun p => p.paymentId = k) = [] ∧
      ∀ line ∈ lines, vf.integer line "payment_id" ≠ k) ∨
    ∃ line ∈ lines, vf.integer line "payment_id" = k ∧
      rows.filter (fun p => p.paymentId = k) = [stgPayment vf line] ∧
      ∀ other ∈ lines, vf.integer other "payment_id" = k →
        Sql.nullsFirst (vf.timestamp other "updated_at") ≤
          Sql.nullsFirst (vf.timestamp line "updated_at")

variable {vf}

theorem CurrentState.perm {lines lines' : List Line} {rows : List StgPayment}
    (h : CurrentState vf lines rows) (same : lines.Perm lines') : CurrentState vf lines' rows := by
  intro k
  rcases h k with ⟨hrows, hnone⟩ | ⟨line, hline, hk, hrows, newest⟩
  · exact .inl ⟨hrows, fun line hline => hnone line (same.mem_iff.mpr hline)⟩
  · exact .inr ⟨line, same.mem_iff.mp hline, hk, hrows,
      fun other hother => newest other (same.mem_iff.mpr hother)⟩

/-- The model depends on the run it serves and on the rows of that run. -/
theorem stgPayments_congr {table' : List SnapshotRun}
    {rawPayments rawPayments' : List (RawRow Line)}
    (run : (latestSnapshot table').map SnapshotRun.runId =
      (latestSnapshot table).map SnapshotRun.runId)
    (rows : ∀ r, latestSnapshot table = some r →
      rowsOfRun r.runId rawPayments' = rowsOfRun r.runId rawPayments) :
    stgPayments vf table' rawPayments' = stgPayments vf table rawPayments := by
  unfold stgPayments
  cases h : latestSnapshot table with
  | none =>
      rw [h] at run
      rw [Option.map_eq_none_iff.mp run]
  | some r =>
      rw [h, Option.map_some] at run
      obtain ⟨r', hr', hid⟩ := Option.map_eq_some_iff.mp run
      simp only [hr', hid, rows r h]

/-- The model serves the current state of the lines of the latest snapshot. -/
theorem currentState_stgPayments {rawPayments : List (RawRow Line)}
    (h : latestSnapshot table = some r) :
    CurrentState vf ((rowsOfRun r.runId rawPayments).map RawRow.raw)
      (stgPayments vf table rawPayments) := by
  intro k
  have selected : (stgPayments vf table rawPayments).filter (fun p => p.paymentId = k) =
      (Sql.latestOf (fun r : RawRow Line => vf.integer r.raw "payment_id") (versionKey vf)
        (rowsOfRun r.runId rawPayments) k).toList.map fun r => stgPayment vf r.raw := by
    rw [← Sql.partition_latestBy, stgPayments, h, List.filter_map]
    rfl
  cases hwinner : Sql.latestOf (fun r : RawRow Line => vf.integer r.raw "payment_id")
      (versionKey vf) (rowsOfRun r.runId rawPayments) k with
  | none =>
      rw [hwinner] at selected
      refine .inl ⟨selected, fun line hline hk => ?_⟩
      obtain ⟨row, hrow, rfl⟩ := List.mem_map.mp hline
      exact Sql.latestOf_eq_none.mp hwinner row hrow hk
  | some winner =>
      rw [hwinner] at selected
      obtain ⟨hmem, hk⟩ := Sql.latestOf_mem hwinner
      refine .inr ⟨winner.raw, List.mem_map_of_mem hmem, hk, selected, fun other hother hk => ?_⟩
      obtain ⟨row, hrow, rfl⟩ := List.mem_map.mp hother
      have order := Sql.le_latestOf hwinner hrow hk
      rw [Prod.Lex.le_iff] at order
      rcases order with hlt | ⟨heq, _⟩
      · exact hlt.le
      · exact heq.le

end CurrentState

end PaymentsPlatform.Snowflake
