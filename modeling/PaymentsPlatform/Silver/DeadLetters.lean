import PaymentsPlatform.Silver.Accounting

/-!
# What the dead-letter table counts

The rejects of a batch go into the dead-letter table by a `MERGE` on their Kafka
coordinates, one statement for the records without an operation and one for those with
an unknown one. The statement's source is not deduplicated: two rejects of one kind
with the same coordinates are both inserted, and once their coordinates are in the
table the statement fails.

`Ledger` runs the calls with the records seen so far beside the tables.
`countsProblems_iff` says which runs keep one row for every reject and never fail:
those without a batch in which two rejects of one kind share their coordinates.
-/

namespace PaymentsPlatform.Silver

variable {Value Double : Type}

/-- The tables, with the records of the calls so far and whether one of these calls
failed because a target row of a `MERGE` was matched by several source rows. -/
structure Ledger (Value : Type) where
  tables : Tables Value
  seen : List (Record Value)
  jammed : Bool

section Definitions

variable (sp : SparkFunctions Value Double)

/-- The call fails on a target row that several source rows match. -/
def jams (tables : Tables Value) (batch : MicroBatch Value) : Bool :=
  match (upsertToSilver sp batch).run tables with
  | .error .mergeCardinality _ => true
  | _ => false

/-- One call, returned from or raised out of, with its records noted. -/
def observe (ledger : Ledger Value) (batch : MicroBatch Value) : Ledger Value where
  tables := afterBatch sp ledger.tables batch
  seen := ledger.seen ++ batch.records
  jammed := ledger.jammed || jams sp ledger.tables batch

/-- The dead-letter table has one row for the coordinates of every reject seen, and no
other, and no call has failed on its cardinality. -/
structure CountsProblems (ledger : Ledger Value) : Prop where
  single : (ledger.tables.dlq.map DlqRow.key).Nodup
  exact : ∀ key, DeadLettered ledger.tables.dlq key ↔
    ∃ r ∈ ledger.seen, IsReject sp r ∧ r.key = key
  running : ledger.jammed = false

/-- No two rejects of one kind have the same coordinates. -/
structure DistinctRejects (records : List (Record Value)) : Prop where
  malformed : ((malformed sp records).map Record.key).Nodup
  unexpected : ((unexpected sp records).map Record.key).Nodup

end Definitions

variable {sp : SparkFunctions Value Double} {batch : MicroBatch Value}
variable {tables : Tables Value} {dlq dlq' rows : List (DlqRow Value)}

private theorem nodup_keys_iff : (dlq.map DlqRow.key).Nodup ↔
    ∀ key, (Sql.partition (fun d => some d.key) (some key) dlq).length ≤ 1 := by
  simp only [Sql.nodup_map_iff, Sql.partition_some]

/-- A dead-letter statement leaves distinct coordinates exactly where it finds them. -/
theorem nodup_exec_iff (h : dlqMerge.exec dlq rows = some dlq') :
    (dlq'.map DlqRow.key).Nodup ↔ (dlq.map DlqRow.key).Nodup ∧ (rows.map DlqRow.key).Nodup := by
  rw [nodup_keys_iff, nodup_keys_iff, nodup_keys_iff]
  constructor
  · intro single
    constructor <;> intro key <;> by_contra several
    · have := dlqMerge_keyedBy.several_of_exec dlqMerge_upserts h (.inl (not_le.mp several))
      exact absurd (single key) (not_le.mpr this)
    · have := dlqMerge_keyedBy.several_of_exec dlqMerge_upserts h (.inr (not_le.mp several))
      exact absurd (single key) (not_le.mpr this)
  · rintro ⟨single, unique⟩ key
    exact dlqMerge_keyedBy.length_partition_exec_le h (single key) (unique key)

/-- Into a table of distinct coordinates the rejects can be recorded, keeping them
distinct, exactly when those of each kind have distinct coordinates. -/
theorem recorded_nodup_iff (single : (dlq.map DlqRow.key).Nodup) :
    (∃ dlq', recordRejects sp batch dlq = some dlq' ∧ (dlq'.map DlqRow.key).Nodup) ↔
      DistinctRejects sp batch.records := by
  constructor
  · rintro ⟨dlq', recorded, single'⟩
    obtain ⟨dlq₁, h₁, h₂⟩ := Option.bind_eq_some_iff.mp recorded
    obtain ⟨single₁, unexpected⟩ := (nodup_exec_iff h₂).mp single'
    obtain ⟨_, malformed⟩ := (nodup_exec_iff h₁).mp single₁
    rw [dlqRows_keys] at malformed unexpected
    exact ⟨malformed, unexpected⟩
  · rintro ⟨malformed, unexpected⟩
    rw [← dlqRows_keys _ batch.batchId "null_op" batch.now] at malformed
    rw [← dlqRows_keys _ batch.batchId "unexpected_op" batch.now] at unexpected
    obtain ⟨dlq₁, h₁⟩ := exec_dlqMerge_isSome dlq malformed
    obtain ⟨dlq₂, h₂⟩ := exec_dlqMerge_isSome dlq₁ unexpected
    refine ⟨dlq₂, by rw [recordRejects, h₁, Option.bind_some, h₂], ?_⟩
    exact (nodup_exec_iff h₂).mpr ⟨(nodup_exec_iff h₁).mpr ⟨single, malformed⟩, unexpected⟩

/-- The dead-letter table after a call that records its rejects, also when the call
raises afterwards. -/
theorem afterBatch_dlq (recorded : recordRejects sp batch tables.dlq = some dlq) :
    (afterBatch sp tables batch).dlq = dlq := by
  rw [afterBatch, upsertToSilver_run_of_recorded recorded]
  cases validateUpserts (upsertsOf (batchChanges sp batch)) with
  | error e => rfl
  | ok _ => cases silverMerge.exec tables.silver (batchChanges sp batch) <;> rfl

/-- Only the dead-letter statements ever fail on their cardinality. -/
theorem jams_eq_false_iff : jams sp tables batch = false ↔
    ∃ dlq, recordRejects sp batch tables.dlq = some dlq := by
  rw [jams]
  cases recorded : recordRejects sp batch tables.dlq with
  | none =>
      obtain ⟨dlq, hrun⟩ := upsertToSilver_run_of_unrecorded recorded
      simp [hrun]
  | some dlq =>
      obtain ⟨silver, merged⟩ := silverMerge_keyedBy.exec_isSome tables.silver
        (batchChanges_unique sp batch)
      rw [upsertToSilver_run_of_recorded recorded, merged]
      cases hvalid : validateUpserts (upsertsOf (batchChanges sp batch)) with
      | ok _ => simp
      | error e =>
          have quality : e ≠ .mergeCardinality := by
            rintro rfl
            unfold validateUpserts at hvalid
            split at hvalid <;> cases hvalid
          cases e with
          | dataQuality failures => simp
          | mergeCardinality => exact absurd rfl quality

/-- One call keeps the account exactly when the rejects of its batch are distinct. -/
theorem countsProblems_observe_iff {ledger : Ledger Value}
    (counts : CountsProblems sp ledger) :
    CountsProblems sp (observe sp ledger batch) ↔ DistinctRejects sp batch.records := by
  rw [← recorded_nodup_iff counts.single]
  constructor
  · intro after
    have running := after.running
    rw [observe, counts.running, Bool.false_or, jams_eq_false_iff] at running
    obtain ⟨dlq, recorded⟩ := running
    refine ⟨dlq, recorded, ?_⟩
    rw [← afterBatch_dlq recorded]
    exact after.single
  · rintro ⟨dlq, recorded, single⟩
    refine ⟨?_, fun key => ?_, ?_⟩
    · rw [observe, afterBatch_dlq recorded]
      exact single
    · rw [observe, afterBatch_dlq recorded, deadLettered_recordRejects recorded, counts.exact]
      simp only [List.mem_append, or_and_right, exists_or]
    · rw [observe, counts.running, Bool.false_or, jams_eq_false_iff]
      exact ⟨dlq, recorded⟩

/-- A run from an empty dead-letter table keeps the account throughout exactly when no
batch of it has two rejects of one kind with the same coordinates. -/
theorem countsProblems_iff (sp : SparkFunctions Value Double) (silver : List SilverRow)
    (batches : List (MicroBatch Value)) :
    Machine.Always (observe sp) (CountsProblems sp) ⟨⟨silver, []⟩, [], false⟩ batches ↔
      ∀ batch ∈ batches, DistinctRejects sp batch.records := by
  have start : CountsProblems sp ⟨⟨silver, []⟩, [], false⟩ :=
    ⟨List.nodup_nil, by simp [DeadLettered], rfl⟩
  have throughout :
      Machine.Always (observe sp) (CountsProblems sp) ⟨⟨silver, []⟩, [], false⟩ batches ↔
        Machine.Along (observe sp) (fun _ batch => DistinctRejects sp batch.records)
          ⟨⟨silver, []⟩, [], false⟩ batches :=
    Machine.always_iff_along (I := fun _ => True) trivial (fun _ _ _ => trivial) start
      fun _ _ _ counts => countsProblems_observe_iff counts
  exact throughout.trans Machine.along_const_iff

/-- A record without an operation, twice in one batch. -/
def repeatedReject : MicroBatch Envelope :=
  sampleBatch 1 [recordAt 5 [("$.before.payment_id", "1")],
    recordAt 5 [("$.before.payment_id", "1")]]

/-- Two rows under the same coordinates after the first call, and a second call on the
same batch fails on them. -/
theorem repeatedReject_jams :
    ¬Machine.Always (observe sampleSpark) (CountsProblems sampleSpark) ⟨⟨[], []⟩, [], false⟩
        [repeatedReject, repeatedReject] ∧
      (afterBatch sampleSpark ⟨[], []⟩ repeatedReject).dlq.map DlqRow.key = [(0, 5), (0, 5)] ∧
      jams sampleSpark (afterBatch sampleSpark ⟨[], []⟩ repeatedReject) repeatedReject = true := by
  refine ⟨fun always => ?_, by decide, by decide⟩
  exact absurd (always.final).running (by decide)

end PaymentsPlatform.Silver
