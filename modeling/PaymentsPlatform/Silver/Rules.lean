import PaymentsPlatform.Sql.Merge

/-!
# The payment rules shared by the Spark jobs

`config/spark/jobs/payment_rules.py`: the accepted methods, statuses and change
operations, the two tables the silver job writes, and the two `MERGE` statements
it writes them with. `silverMerge` and `dlqMerge` are the statements that
`silver_merge_sql` and `dlq_merge_sql` spell out as text, clause by clause.

Amounts are counted in cents (`DECIMAL(12,2)`), timestamps in microseconds.
-/

namespace PaymentsPlatform.Silver

def allowedPaymentMethods : List String :=
  ["apple_pay", "bank_transfer", "card", "google_pay", "paypal"]

def allowedPaymentStatuses : List String :=
  ["authorized", "cancelled", "chargeback", "failed", "pending", "refunded"]

/-- Create, snapshot-read and update: the operations that carry `after`. -/
def cdcUpsertOps : List String := ["c", "r", "u"]

def cdcDeleteOp : String := "d"

/-- Anything else is a dead-letter record. -/
def cdcOps : List String := ["c", "d", "r", "u"]

theorem mem_cdcOps {op : String} : op ∈ cdcOps ↔ op = cdcDeleteOp ∨ op ∈ cdcUpsertOps := by
  simp only [cdcOps, cdcDeleteOp, cdcUpsertOps, List.mem_cons, List.not_mem_nil, or_false]
  tauto

theorem cdcDeleteOp_not_mem : cdcDeleteOp ∉ cdcUpsertOps := by decide

theorem ne_delete_of_upsert {op : Option String} (upsert : ∃ o ∈ cdcUpsertOps, op = some o) :
    op ≠ some cdcDeleteOp := by
  obtain ⟨o, ho, rfl⟩ := upsert
  rintro ⟨⟩
  exact cdcDeleteOp_not_mem ho

/-- A row of `payments_silver`; every column is nullable but `ingested_at`, which
the job fills with the current timestamp. -/
structure SilverRow where
  paymentId : Option Int
  merchantId : Option Int
  amount : Option Int
  currency : Option String
  paymentMethod : Option String
  paymentStatus : Option String
  countryCode : Option String
  createdAt : Option Int
  updatedAt : Option Int
  sourceLsn : Option Int
  ingestedAt : Int
  deriving DecidableEq, Repr

/-- The row with the ingestion time blanked out. -/
def SilverRow.ignoringIngestedAt (r : SilverRow) : SilverRow := { r with ingestedAt := 0 }

/-- A row of the change set `_silver_changes`: the silver columns and the operation. -/
structure Change extends SilverRow where
  op : Option String
  deriving DecidableEq, Repr

/-- The sequence guard: the change has a greater LSN than the row. -/
def newer (t : SilverRow) (s : Change) : Sql.Truth := Sql.lt t.sourceLsn s.sourceLsn

/-- The one sequenced `MERGE` of a batch: delete, update, insert. -/
def silverMerge : Sql.Merge SilverRow Change where
  on t s := Sql.eq t.paymentId s.paymentId
  whenMatched :=
    [(fun t s => (newer t s).and (Sql.eq s.op (some cdcDeleteOp)),
      fun _ _ => none),
     (fun t s => (newer t s).and (Sql.isIn s.op cdcUpsertOps),
      fun t s => some { s.toSilverRow with paymentId := t.paymentId })]
  whenNotMatched :=
    [(fun s => Sql.isIn s.op cdcUpsertOps, fun s => s.toSilverRow)]

/-- A row of `payments_silver_dlq`. The Kafka coordinates are never NULL: the Kafka
source always supplies them. -/
structure DlqRow (Value : Type) where
  kafkaPartition : Int
  kafkaOffset : Int
  kafkaValue : Option Value
  batchId : Int
  errorReason : String
  ingestedAt : Int
  deriving DecidableEq, Repr

variable {Value : Type}

/-- The Kafka coordinates of a dead letter. -/
def DlqRow.key (r : DlqRow Value) : Int × Int := (r.kafkaPartition, r.kafkaOffset)

/-- The idempotent `MERGE` of dead-letter rows on their Kafka coordinates. -/
def dlqMerge : Sql.Merge (DlqRow Value) (DlqRow Value) where
  on t s := (Sql.eq (some t.kafkaPartition) (some s.kafkaPartition)).and
    (Sql.eq (some t.kafkaOffset) (some s.kafkaOffset))
  whenMatched :=
    [(fun _ _ => some true,
      fun t s => some { s with kafkaPartition := t.kafkaPartition, kafkaOffset := t.kafkaOffset })]
  whenNotMatched := [(fun _ => some true, fun s => s)]

theorem silverMerge_pairs {t : SilverRow} {s : Change} :
    silverMerge.pairs t s = true ↔ ∃ k, t.paymentId = some k ∧ s.paymentId = some k :=
  Sql.eq_holds

theorem silverMerge_applyMatched (t : SilverRow) (s : Change) :
    silverMerge.applyMatched t s =
      if (newer t s).holds then
        if s.op = some cdcDeleteOp then none
        else if (Sql.isIn s.op cdcUpsertOps).holds then
          some { s.toSilverRow with paymentId := t.paymentId }
        else some t
      else some t := by
  have deletes : (Sql.eq s.op (some cdcDeleteOp)).holds = decide (s.op = some cdcDeleteOp) := by
    rw [Bool.eq_iff_iff, Sql.eq_holds]
    simp
  simp only [Sql.Merge.applyMatched, silverMerge, List.find?_cons, List.find?_nil,
    Sql.Truth.holds_and, deletes]
  cases hn : (newer t s).holds with
  | false => simp
  | true =>
      by_cases hd : s.op = some cdcDeleteOp
      · simp [hd]
      · cases hu : (Sql.isIn s.op cdcUpsertOps).holds <;> simp [hd]

theorem silverMerge_insertFor (s : Change) :
    silverMerge.insertFor s =
      if (Sql.isIn s.op cdcUpsertOps).holds then some s.toSilverRow else none := by
  cases hu : (Sql.isIn s.op cdcUpsertOps).holds <;>
    simp [Sql.Merge.insertFor, silverMerge, hu]

theorem silverMerge_keyedBy :
    silverMerge.KeyedBy SilverRow.paymentId (fun s : Change => s.paymentId) where
  on_iff _ _ := silverMerge_pairs
  update_key t s t' h := by
    rw [silverMerge_applyMatched] at h
    split at h
    · split at h
      · cases h
      · split at h <;> rw [← Option.some.inj h]
    · rw [Option.some.inj h]
  insert_key s t h := by
    rw [silverMerge_insertFor] at h
    split at h
    · rw [← Option.some.inj h]
    · cases h

theorem dlqMerge_pairs {t s : DlqRow Value} :
    dlqMerge.pairs t s = true ↔ t.key = s.key := by
  simp [Sql.Merge.pairs, dlqMerge, Sql.eq, DlqRow.key, Prod.ext_iff]

theorem dlqMerge_applyMatched (t s : DlqRow Value) :
    dlqMerge.applyMatched t s =
      some { s with kafkaPartition := t.kafkaPartition, kafkaOffset := t.kafkaOffset } := rfl

theorem dlqMerge_insertFor (s : DlqRow Value) : dlqMerge.insertFor s = some s := rfl

theorem dlqMerge_keyedBy :
    (dlqMerge : Sql.Merge (DlqRow Value) (DlqRow Value)).KeyedBy
      (fun t => some t.key) (fun s => some s.key) where
  on_iff t s := by
    rw [dlqMerge_pairs]
    simp [eq_comm]
  update_key t s t' h := by
    rw [dlqMerge_applyMatched] at h
    rw [← Option.some.inj h]
    rfl
  insert_key s t h := by
    rw [dlqMerge_insertFor] at h
    rw [Option.some.inj h]

theorem dlqMerge_upserts : (dlqMerge : Sql.Merge (DlqRow Value) (DlqRow Value)).Upserts where
  matched t s := ⟨_, dlqMerge_applyMatched t s⟩
  unmatched s := ⟨_, dlqMerge_insertFor s⟩

end PaymentsPlatform.Silver
