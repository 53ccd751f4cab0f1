import PaymentsPlatform.Silver.Quality

/-!
# One micro-batch

`_upsert_to_silver` of `config/spark/jobs/silver_payments.py`, as a stateful
computation on the two tables it writes. An exception stops the computation and
keeps what was written before it: dead-letter rows are written first, the silver
table by the last statement.

`upsertToSilver_ok_iff` is the whole content of a call that returns, and no later
proof unfolds the function: the rejects reach the dead-letter table, the upserts of
the change set pass, and the sequenced `MERGE` gives the new silver table.
-/

namespace PaymentsPlatform.Silver

/-- The tables the job writes. -/
structure Tables (Value : Type) where
  silver : List SilverRow
  dlq : List (DlqRow Value)

/-- Computations of the job: exceptions over the state of the tables. -/
abbrev Job (Value : Type) := EStateM JobError (Tables Value)

variable {Value Double : Type}

/-- The rows `_write_to_dlq` selects. -/
def dlqRows (records : List (Record Value)) (batchId : Int) (reason : String) (now : Int) :
    List (DlqRow Value) :=
  records.map fun r =>
    { kafkaPartition := r.kafkaPartition, kafkaOffset := r.kafkaOffset,
      kafkaValue := r.kafkaValue, batchId := batchId, errorReason := reason, ingestedAt := now }

/-- Record rejects with the reason for them. -/
def writeToDlq (records : List (Record Value)) (batchId : Int) (reason : String) (now : Int) :
    Job Value Unit := do
  let tables ← get
  match dlqMerge.exec tables.dlq (dlqRows records batchId reason now) with
  | some dlq => set { tables with dlq := dlq }
  | none => throw .mergeCardinality

/-- Run the sequenced `MERGE` over the change set. -/
def mergeIntoSilver (changes : List Change) : Job Value Unit := do
  let tables ← get
  match silverMerge.exec tables.silver changes with
  | some silver => set { tables with silver := silver }
  | none => throw .mergeCardinality

/-- The rules raise or return. -/
def checkQuality (upserts : List Change) : Job Value Unit :=
  match validateUpserts upserts with
  | .ok () => pure ()
  | .error e => throw e

section Job

variable (sp : SparkFunctions Value Double)

/-- Records with a value but no operation. -/
def malformed (records : List (Record Value)) : List (Record Value) :=
  (records.filter fun r => r.kafkaValue.isSome).filter fun r => (opOf sp r.kafkaValue).isNone

/-- Records with a value and an operation. -/
def knownOps (records : List (Record Value)) : List (Record Value) :=
  (records.filter fun r => r.kafkaValue.isSome).filter fun r => (opOf sp r.kafkaValue).isSome

/-- Records with an operation that is not one of the four. -/
def unexpected (records : List (Record Value)) : List (Record Value) :=
  (knownOps sp records).filter fun r => (Sql.isIn (opOf sp r.kafkaValue) cdcOps).not.holds

/-- The events the change set is built from. -/
def processable (records : List (Record Value)) : List (Record Value) :=
  (knownOps sp records).filter fun r => (Sql.isIn (opOf sp r.kafkaValue) cdcOps).holds

/-- The upsert rows of a change set. -/
def upsertsOf (changes : List Change) : List Change :=
  changes.filter fun c => (Sql.isIn c.op cdcUpsertOps).holds

/-- One micro-batch: its rejects, its rules, its `MERGE`. -/
def upsertToSilver (batch : MicroBatch Value) : Job Value Unit := do
  if malformed sp batch.records ≠ [] then
    writeToDlq (malformed sp batch.records) batch.batchId "null_op" batch.now
  if unexpected sp batch.records ≠ [] then
    writeToDlq (unexpected sp batch.records) batch.batchId "unexpected_op" batch.now
  let changes := buildChanges sp batch.now (processable sp batch.records)
  if changes = [] then
    return
  if upsertsOf changes ≠ [] then
    checkQuality (upsertsOf changes)
  mergeIntoSilver changes

/-- The change set of a batch. -/
def batchChanges (batch : MicroBatch Value) : List Change :=
  buildChanges sp batch.now (processable sp batch.records)

/-- The event of the payment `k` that the batch keeps: the one with the highest LSN. -/
def batchWinner (batch : MicroBatch Value) (k : Int) : Option Projected :=
  winner sp batch.now (processable sp batch.records) (some k)

/-- The dead-letter table after the rejects of a batch, if both statements run. -/
def recordRejects (batch : MicroBatch Value) (dlq : List (DlqRow Value)) :
    Option (List (DlqRow Value)) :=
  (dlqMerge.exec dlq
    (dlqRows (malformed sp batch.records) batch.batchId "null_op" batch.now)).bind fun dlq =>
      dlqMerge.exec dlq
        (dlqRows (unexpected sp batch.records) batch.batchId "unexpected_op" batch.now)

/-- The tables after a call, returned from or raised out of. -/
def afterBatch (tables : Tables Value) (batch : MicroBatch Value) : Tables Value :=
  match (upsertToSilver sp batch).run tables with
  | .ok _ tables => tables
  | .error _ tables => tables

/-- The call returns without raising. -/
def Returns (tables : Tables Value) (batch : MicroBatch Value) : Prop :=
  ∃ tables', (upsertToSilver sp batch).run tables = .ok () tables'

end Job

variable {sp : SparkFunctions Value Double} {batch : MicroBatch Value}
variable {records : List (Record Value)} {tables tables' : Tables Value} {r : Record Value}

@[simp] theorem dlqRows_keys (records : List (Record Value)) (batchId : Int) (reason : String)
    (now : Int) : (dlqRows records batchId reason now).map DlqRow.key = records.map Record.key := by
  simp [dlqRows, DlqRow.key, Record.key, Function.comp_def]

theorem mem_malformed : r ∈ malformed sp records ↔
    r ∈ records ∧ (∃ v, r.kafkaValue = some v) ∧ opOf sp r.kafkaValue = none := by
  simp only [malformed, List.mem_filter, Option.isSome_iff_exists, Option.isNone_iff_eq_none,
    and_assoc]

private theorem kafkaValue_of_opOf {value : Option Value} {op : String}
    (h : opOf sp value = some op) : ∃ v, value = some v := by
  cases value with
  | none => cases h
  | some v => exact ⟨v, rfl⟩

theorem mem_unexpected : r ∈ unexpected sp records ↔
    r ∈ records ∧ ∃ op, opOf sp r.kafkaValue = some op ∧ op ∉ cdcOps := by
  simp only [unexpected, knownOps, List.mem_filter, Sql.not_isIn_holds, Option.isSome_iff_exists]
  constructor
  · rintro ⟨⟨⟨hmem, _⟩, _⟩, op, hop, hout⟩
    exact ⟨hmem, op, hop, hout⟩
  · rintro ⟨hmem, op, hop, hout⟩
    exact ⟨⟨⟨hmem, kafkaValue_of_opOf hop⟩, op, hop⟩, op, hop, hout⟩

theorem mem_processable : r ∈ processable sp records ↔
    r ∈ records ∧ ∃ op ∈ cdcOps, opOf sp r.kafkaValue = some op := by
  simp only [processable, knownOps, List.mem_filter, Sql.isIn_holds, Option.isSome_iff_exists]
  constructor
  · rintro ⟨⟨⟨hmem, _⟩, _⟩, op, hin, hop⟩
    exact ⟨hmem, op, hin, hop⟩
  · rintro ⟨hmem, op, hin, hop⟩
    exact ⟨⟨⟨hmem, kafkaValue_of_opOf hop⟩, op, hop⟩, op, hin, hop⟩

theorem mem_upsertsOf {changes : List Change} {c : Change} :
    c ∈ upsertsOf changes ↔ c ∈ changes ∧ ∃ op ∈ cdcUpsertOps, c.op = some op := by
  rw [upsertsOf, List.mem_filter, Sql.isIn_holds]

private theorem writeToDlq_run (records : List (Record Value)) (batchId : Int) (reason : String)
    (now : Int) (tables : Tables Value) :
    (writeToDlq records batchId reason now).run tables =
      match dlqMerge.exec tables.dlq (dlqRows records batchId reason now) with
      | some dlq => .ok () { tables with dlq := dlq }
      | none => .error .mergeCardinality tables := by
  simp only [writeToDlq, EStateM.run, bind, EStateM.bind, get, getThe, MonadStateOf.get,
    EStateM.get]
  cases dlqMerge.exec tables.dlq (dlqRows records batchId reason now) <;> rfl

private theorem mergeIntoSilver_run (changes : List Change) (tables : Tables Value) :
    (mergeIntoSilver changes).run tables =
      match silverMerge.exec tables.silver changes with
      | some silver => .ok () { tables with silver := silver }
      | none => .error .mergeCardinality tables := by
  simp only [mergeIntoSilver, EStateM.run, bind, EStateM.bind, get, getThe, MonadStateOf.get,
    EStateM.get]
  cases silverMerge.exec tables.silver changes <;> rfl

private theorem checkQuality_run (upserts : List Change) (tables : Tables Value) :
    (checkQuality upserts).run tables =
      match validateUpserts upserts with
      | .ok () => .ok () tables
      | .error e => .error e tables := by
  simp only [checkQuality, EStateM.run]
  cases validateUpserts upserts <;> rfl

/-- Writing no rows is a no-op, so the emptiness test of the source changes nothing. -/
private theorem writeToDlq_unless_empty (records : List (Record Value)) (batchId : Int)
    (reason : String) (now : Int) (rest : Unit → Job Value Unit) :
    (if records ≠ [] then writeToDlq records batchId reason now >>= rest else rest ()) =
      writeToDlq records batchId reason now >>= rest := by
  split
  · rfl
  · rename_i hnil
    rw [not_not] at hnil
    subst hnil
    have silent : (writeToDlq [] batchId reason now : Job Value Unit) = pure () := by
      funext tables
      have run := writeToDlq_run [] batchId reason now tables
      rw [dlqRows, List.map_nil, Sql.Merge.exec_nil] at run
      exact run
    rw [silent]
    rfl

/-- Checking no upserts and merging no changes are no-ops as well. -/
private theorem merge_unless_empty (changes : List Change) :
    (if changes = [] then pure ()
      else if upsertsOf changes ≠ [] then
        checkQuality (upsertsOf changes) >>= fun _ => mergeIntoSilver changes
      else mergeIntoSilver changes) =
      (checkQuality (upsertsOf changes) >>= fun _ => mergeIntoSilver changes : Job Value Unit) := by
  have silent : (checkQuality [] : Job Value Unit) = pure () := by
    funext tables
    have run := checkQuality_run [] tables
    rw [validateUpserts_nil] at run
    exact run
  split
  · rename_i hnil
    subst hnil
    funext tables
    have run := mergeIntoSilver_run [] tables
    rw [Sql.Merge.exec_nil] at run
    rw [show upsertsOf [] = [] from rfl, silent]
    exact run.symm
  · by_cases hup : upsertsOf changes = []
    · rw [hup, silent]
      rfl
    · rw [if_pos hup]

/-- The call without its emptiness tests. -/
private theorem upsertToSilver_eq (sp : SparkFunctions Value Double) (batch : MicroBatch Value) :
    upsertToSilver sp batch =
      (writeToDlq (malformed sp batch.records) batch.batchId "null_op" batch.now >>= fun _ =>
        writeToDlq (unexpected sp batch.records) batch.batchId "unexpected_op" batch.now >>=
          fun _ => checkQuality (upsertsOf (batchChanges sp batch)) >>= fun _ =>
            mergeIntoSilver (batchChanges sp batch)) := by
  unfold upsertToSilver batchChanges
  simp only [writeToDlq_unless_empty, merge_unless_empty]

private theorem run_bind {first : Job Value Unit} {rest : Unit → Job Value Unit} :
    (first >>= rest).run tables =
      match first.run tables with
      | .ok () tables => (rest ()).run tables
      | .error e tables => .error e tables := by
  simp only [bind, EStateM.bind, EStateM.run]
  cases first tables <;> rfl

/-- The whole call, statement by statement. -/
theorem upsertToSilver_run (sp : SparkFunctions Value Double) (batch : MicroBatch Value)
    (tables : Tables Value) : (upsertToSilver sp batch).run tables =
      match dlqMerge.exec tables.dlq
        (dlqRows (malformed sp batch.records) batch.batchId "null_op" batch.now) with
      | none => .error .mergeCardinality tables
      | some dlq₁ =>
          match dlqMerge.exec dlq₁
            (dlqRows (unexpected sp batch.records) batch.batchId "unexpected_op" batch.now) with
          | none => .error .mergeCardinality { tables with dlq := dlq₁ }
          | some dlq₂ =>
              match validateUpserts (upsertsOf (batchChanges sp batch)) with
              | .error e => .error e { tables with dlq := dlq₂ }
              | .ok () =>
                  match silverMerge.exec tables.silver (batchChanges sp batch) with
                  | none => .error .mergeCardinality { tables with dlq := dlq₂ }
                  | some silver => .ok () { silver := silver, dlq := dlq₂ } := by
  rw [upsertToSilver_eq, run_bind, writeToDlq_run]
  cases dlqMerge.exec tables.dlq
      (dlqRows (malformed sp batch.records) batch.batchId "null_op" batch.now) with
  | none => rfl
  | some dlq₁ =>
      simp only [run_bind, writeToDlq_run]
      cases dlqMerge.exec dlq₁
          (dlqRows (unexpected sp batch.records) batch.batchId "unexpected_op" batch.now) with
      | none => rfl
      | some dlq₂ =>
          simp only [checkQuality_run]
          cases validateUpserts (upsertsOf (batchChanges sp batch)) with
          | error e => rfl
          | ok _ =>
              simp only [mergeIntoSilver_run]
              cases silverMerge.exec tables.silver (batchChanges sp batch) <;> rfl

/-- A call whose rejects are recorded goes on with the silver table alone. -/
theorem upsertToSilver_run_of_recorded {dlq : List (DlqRow Value)}
    (recorded : recordRejects sp batch tables.dlq = some dlq) :
    (upsertToSilver sp batch).run tables =
      match validateUpserts (upsertsOf (batchChanges sp batch)) with
      | .error e => .error e { tables with dlq := dlq }
      | .ok () =>
          match silverMerge.exec tables.silver (batchChanges sp batch) with
          | none => .error .mergeCardinality { tables with dlq := dlq }
          | some silver => .ok () { silver := silver, dlq := dlq } := by
  obtain ⟨dlq₁, h₁, h₂⟩ := Option.bind_eq_some_iff.mp recorded
  rw [upsertToSilver_run, h₁]
  simp only [h₂]

/-- A call whose rejects cannot be recorded raises on the cardinality of a `MERGE`. -/
theorem upsertToSilver_run_of_unrecorded (unrecorded : recordRejects sp batch tables.dlq = none) :
    ∃ dlq, (upsertToSilver sp batch).run tables =
      .error .mergeCardinality { tables with dlq := dlq } := by
  rw [recordRejects, Option.bind_eq_none_iff] at unrecorded
  rw [upsertToSilver_run]
  cases h₁ : dlqMerge.exec tables.dlq
      (dlqRows (malformed sp batch.records) batch.batchId "null_op" batch.now) with
  | none => exact ⟨tables.dlq, rfl⟩
  | some dlq₁ =>
      simp only [unrecorded dlq₁ h₁]
      exact ⟨dlq₁, rfl⟩

/-- What a call that returns has done: both dead-letter statements and the sequenced
`MERGE` ran, and every upsert of the change set passed. -/
theorem upsertToSilver_ok_iff : (upsertToSilver sp batch).run tables = .ok () tables' ↔
    recordRejects sp batch tables.dlq = some tables'.dlq ∧
      validateUpserts (upsertsOf (batchChanges sp batch)) = .ok () ∧
      silverMerge.exec tables.silver (batchChanges sp batch) = some tables'.silver := by
  cases recorded : recordRejects sp batch tables.dlq with
  | none =>
      obtain ⟨dlq, hrun⟩ := upsertToSilver_run_of_unrecorded recorded
      simp [hrun]
  | some dlq =>
      rw [upsertToSilver_run_of_recorded recorded]
      cases validateUpserts (upsertsOf (batchChanges sp batch)) with
      | error e => simp
      | ok _ =>
          cases silverMerge.exec tables.silver (batchChanges sp batch) with
          | none => simp
          | some silver =>
              obtain ⟨silver', dlq'⟩ := tables'
              simp [and_comm]

/-- A call that raises leaves the silver table as it was. -/
theorem upsertToSilver_error_silver {e : JobError}
    (h : (upsertToSilver sp batch).run tables = .error e tables') :
    tables'.silver = tables.silver := by
  cases recorded : recordRejects sp batch tables.dlq with
  | none =>
      obtain ⟨dlq, hrun⟩ := upsertToSilver_run_of_unrecorded recorded
      rw [hrun] at h
      cases h
      rfl
  | some dlq =>
      rw [upsertToSilver_run_of_recorded recorded] at h
      cases hvalid : validateUpserts (upsertsOf (batchChanges sp batch)) with
      | error e =>
          rw [hvalid] at h
          cases h
          rfl
      | ok _ =>
          rw [hvalid] at h
          cases hmerge : silverMerge.exec tables.silver (batchChanges sp batch) with
          | none =>
              rw [hmerge] at h
              cases h
              rfl
          | some silver =>
              rw [hmerge] at h
              cases h

end PaymentsPlatform.Silver
