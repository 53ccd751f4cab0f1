import PaymentsPlatform.Silver.Casts
import PaymentsPlatform.Silver.Contract

/-!
# How a source row arrives in silver

A row of `payments` reaches the projection as the texts that Debezium writes: numerals for
BIGINT and for the microseconds of a TIMESTAMP, a decimal numeral for NUMERIC(12,2).
`_micros_to_timestamp` divides a double by a million and hands the quotient to
`from_unixtime`, which takes whole seconds; so the microseconds are lost, and from `2 ^ 59`
microseconds on a whole second may be too (`faithful_iff`).
-/

namespace PaymentsPlatform.Silver

open Arithmetic

/-- A row of `payments`; the amount is in cents, the timestamps in microseconds. -/
structure SourceRow where
  paymentId : Int
  merchantId : Int
  amount : Int
  createdAt : Int
  updatedAt : Int
  bigintIds : IsBigint paymentId ∧ IsBigint merchantId
  numeric : |amount| < 10 ^ 12
  bigintTimes : IsBigint createdAt ∧ IsBigint updatedAt

section Definitions

variable {Value Double : Type} (sp : SparkFunctions Value Double)

/-- The envelope has the row as its `after` section. -/
structure Carries (value : Option Value) (row : SourceRow) : Prop where
  paymentId : afterField sp value "payment_id" = some (toString row.paymentId)
  merchantId : afterField sp value "merchant_id" = some (toString row.merchantId)
  amount : afterField sp value "amount" = some (numericText row.amount)
  createdAt : afterField sp value "created_at" = some (toString row.createdAt)
  updatedAt : afterField sp value "updated_at" = some (toString row.updatedAt)

/-- The call gets an event that carries the row past every guard, and `s` is the silver
row of it. -/
def Writes (tables : Tables Value) (batch : MicroBatch Value) (row : SourceRow) (s : SilverRow) :
    Prop :=
  ∃ w, Admitted sp tables batch row.paymentId w ∧ w.toSilverRow = s ∧
    ∃ r ∈ batch.records, project sp batch.now r = w ∧ Carries sp r.kafkaValue row

end Definitions

/-- The silver row has the values of the source row. -/
structure Faithful (row : SourceRow) (s : SilverRow) : Prop where
  paymentId : s.paymentId = some row.paymentId
  merchantId : s.merchantId = some row.merchantId
  amount : s.amount = some row.amount
  createdAt : s.createdAt = some row.createdAt
  updatedAt : s.updatedAt = some row.updatedAt

section Projection

variable {Value Double : Type} {sp : SparkFunctions Value Double} {value : Double → ℚ}

/-- The columns of a row, as the projection gets them out of an envelope. -/
theorem Documented.changeOf_columns (spark : Documented sp value) {kafkaValue : Option Value}
    {row : SourceRow} (carries : Carries sp kafkaValue row) (now : Int) :
    (changeOf sp now kafkaValue).paymentId = some row.paymentId ∧
      (changeOf sp now kafkaValue).merchantId = some row.merchantId ∧
        (changeOf sp now kafkaValue).amount = some row.amount ∧
          (changeOf sp now kafkaValue).createdAt = some (secondsOf row.createdAt * 1000000) ∧
            (changeOf sp now kafkaValue).updatedAt = some (secondsOf row.updatedAt * 1000000) := by
  simp only [changeOf, carries.paymentId, carries.merchantId, carries.amount, carries.createdAt,
    carries.updatedAt, Option.some_or, Option.bind_some, spark.castLong _ row.bigintIds.1,
    spark.castLong _ row.bigintIds.2, spark.castDecimal _ row.numeric,
    spark.microsToTimestamp_eq row.bigintTimes.1, spark.microsToTimestamp_eq row.bigintTimes.2,
    and_self]

/-- What is written for a row. -/
theorem Documented.written (spark : Documented sp value) {tables : Tables Value}
    {batch : MicroBatch Value} {row : SourceRow} {written : SilverRow}
    (writes : Writes sp tables batch row written) :
    written.paymentId = some row.paymentId ∧ written.merchantId = some row.merchantId ∧
      written.amount = some row.amount ∧
        written.createdAt = some (secondsOf row.createdAt * 1000000) ∧
          written.updatedAt = some (secondsOf row.updatedAt * 1000000) := by
  obtain ⟨w, _, rfl, r, _, rfl, carries⟩ := writes
  exact spark.changeOf_columns carries batch.now

theorem Writes.stored {tables : Tables Value} {batch : MicroBatch Value} {row : SourceRow}
    {written : SilverRow} (keyed : Keyed tables.silver)
    (writes : Writes sp tables batch row written) :
    written ∈ (afterBatch sp tables batch).silver := by
  obtain ⟨w, admitted, rfl, _⟩ := writes
  exact admitted.mem_afterBatch keyed

/-- In every run from an empty silver table, the row that a call writes for a source row is
stored, and it has the values of the source row exactly when both timestamps keep their
second. Rows whose update times keep theirs are then in the order of the source. -/
theorem faithful_iff (spark : Documented sp value) (dlq : List (DlqRow Value))
    (before : List (MicroBatch Value)) (batch : MicroBatch Value) (row : SourceRow)
    (written : SilverRow)
    (writes : Writes sp (afterBatches sp ⟨[], dlq⟩ before) batch row written) :
    written ∈ (afterBatches sp ⟨[], dlq⟩ (before ++ [batch])).silver ∧
    (Faithful row written ↔ KeepsSecond row.createdAt ∧ KeepsSecond row.updatedAt) ∧
    ∀ dlq' before' batch' row' written',
      Writes sp (afterBatches sp ⟨[], dlq'⟩ before') batch' row' written' →
        KeepsSecond row.updatedAt → KeepsSecond row'.updatedAt →
          ((Sql.lt written.updatedAt written'.updatedAt).holds = true ↔
            row.updatedAt < row'.updatedAt) := by
  obtain ⟨paymentId, merchantId, amount, createdAt, updatedAt⟩ := spark.written writes
  refine ⟨?_, ?_, ?_⟩
  · have stored := writes.stored (checked_afterBatches sp dlq before).keyed
    rw [afterBatches, Machine.run_append]
    exact stored
  · rw [← secondsOf_mul_eq_iff row.bigintTimes.1, ← secondsOf_mul_eq_iff row.bigintTimes.2]
    constructor
    · intro faithful
      exact ⟨Option.some.inj (createdAt.symm.trans faithful.createdAt),
        Option.some.inj (updatedAt.symm.trans faithful.updatedAt)⟩
    · rintro ⟨created, updated⟩
      exact ⟨paymentId, merchantId, amount, created ▸ createdAt, updated ▸ updatedAt⟩
  · intro dlq' before' batch' row' written' writes' kept kept'
    obtain ⟨_, _, _, _, updatedAt'⟩ := spark.written writes'
    rw [updatedAt, updatedAt', (secondsOf_mul_eq_iff row.bigintTimes.2).mpr kept,
      (secondsOf_mul_eq_iff row'.bigintTimes.2).mpr kept']
    simp [Sql.lt]

end Projection

/-- A payment whose update time is not a whole second. -/
def finePayment : SourceRow where
  paymentId := 1
  merchantId := 7
  amount := 10000
  createdAt := 3600000000
  updatedAt := 3661123456
  bigintIds := by unfold IsBigint; decide
  numeric := by decide
  bigintTimes := by unfold IsBigint; decide

/-- Its create event. -/
def fineRecord : Record Envelope :=
  recordAt 0 ((envelope "c" 1 10 "pending").map fun field =>
    if field.1 = "$.after.updated_at" then (field.1, "3661123456") else field)

/-- What the projection makes of it. -/
def fineProjected : Projected where
  op := some "c"
  paymentId := some 1
  merchantId := some 7
  amount := some 10000
  currency := some "USD"
  paymentMethod := some "card"
  paymentStatus := some "pending"
  countryCode := some "US"
  createdAt := some 3600000000
  updatedAt := some 3661000000
  sourceLsn := some 10
  ingestedAt := 1
  kafkaOffset := 0

theorem fineRecord_writes :
    Writes ieeeSpark (afterBatches ieeeSpark ⟨[], []⟩ []) (sampleBatch 1 [fineRecord]) finePayment
      fineProjected.toSilverRow := by
  refine ⟨fineProjected, ?_, rfl, fineRecord, List.mem_singleton_self _, by decide +kernel, ?_⟩
  · exact
      { wins := by decide +kernel
        upsert := by decide
        rejects := ⟨[], by decide +kernel⟩
        valid := by decide +kernel
        fresh := fun t ht => absurd (mem_rowsOf.mp ht).1 List.not_mem_nil }
  · exact
      { paymentId := by decide +kernel
        merchantId := by decide +kernel
        amount := by decide +kernel
        createdAt := by decide +kernel
        updatedAt := by decide +kernel }

/-- The row loses the microseconds behind the last whole second. -/
theorem faithful_iff_fine : ¬Faithful finePayment fineProjected.toSilverRow := by
  have faithful := (faithful_iff documented_ieeeSpark [] [] (sampleBatch 1 [fineRecord])
    finePayment fineProjected.toSilverRow fineRecord_writes).2.1
  have fine : ¬KeepsSecond finePayment.updatedAt := by
    rw [keepsSecond_iff_dvd (by decide)]
    decide
  exact fun kept => fine (faithful.mp kept).2

/-- The row is written without its microseconds. -/
theorem microseconds_lost : Documented ieeeSpark id ∧
    Writes ieeeSpark (afterBatches ieeeSpark ⟨[], []⟩ []) (sampleBatch 1 [fineRecord]) finePayment
      fineProjected.toSilverRow ∧
    ¬Faithful finePayment fineProjected.toSilverRow := by
  refine ⟨documented_ieeeSpark, fineRecord_writes, fun faithful => ?_⟩
  exact absurd faithful.updatedAt (by decide)

end PaymentsPlatform.Silver
