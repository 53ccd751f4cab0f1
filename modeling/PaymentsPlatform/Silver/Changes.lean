import PaymentsPlatform.Silver.Rules
import PaymentsPlatform.Text.Runs

/-!
# From Kafka records to the change set of a batch

`_build_changes` of `config/spark/jobs/silver_payments.py`. A bronze record carries a
Debezium envelope of type `Value`, which the job reads only through Spark's
`get_json_object`; that function, the casts, the time functions and the Unicode
case mappings are Spark's and enter as a `SparkFunctions`, with NULL for a path that
does not resolve and for a cast that fails. The text clean-up of the projection
(`trim`, the collapsing of white space) is defined here.
-/

namespace PaymentsPlatform.Silver

/-- The functions of Spark SQL that the projection calls. `Double` is its 64-bit
float type; decimals are in units of the last of two digits, timestamps in
microseconds. -/
structure SparkFunctions (Value Double : Type) where
  getJsonObject : Value → String → Option String
  castLong : String → Option Int
  castDecimal : String → Option Int
  castDouble : String → Option Double
  divide : Double → Int → Double
  fromUnixtime : Double → Option String
  castTimestamp : String → Option Int
  upper : String → String
  lower : String → String

/-- The columns of a bronze row that the silver job reads. -/
structure Record (Value : Type) where
  kafkaPartition : Int
  kafkaOffset : Int
  kafkaValue : Option Value
  deriving DecidableEq, Repr

/-- The coordinates of a record in its topic. -/
def Record.key {Value : Type} (r : Record Value) : Int × Int := (r.kafkaPartition, r.kafkaOffset)

/-- One call of the `foreachBatch` function: its rows, its id and the current
timestamp while it runs. -/
structure MicroBatch (Value : Type) where
  batchId : Int
  now : Int
  records : List (Record Value)

/-- Spark's `trim` removes the space character only. -/
def trim (text : String) : String := String.ofList (Text.strip (· == ' ') text.toList)

/-- `\s` of `java.util.regex`. -/
def isSpace (c : Char) : Bool :=
  c == ' ' || c == '\t' || c == '\n' || c == Char.ofNat 0x0B || c == Char.ofNat 0x0C || c == '\r'

/-- Every run of white space becomes an underscore. -/
def underscoreSpaces (text : String) : String :=
  String.ofList (Text.replaceRuns isSpace '_' text.toList)

variable {Value Double : Type}

section Projection

variable (sp : SparkFunctions Value Double)

/-- `get_json_object(kafka_value, path)`; NULL in, NULL out. -/
def jsonField (value : Option Value) (path : String) : Option String :=
  value.bind fun v => sp.getJsonObject v path

def afterField (value : Option Value) (field : String) : Option String :=
  jsonField sp value ("$.after." ++ field)

def beforeField (value : Option Value) (field : String) : Option String :=
  jsonField sp value ("$.before." ++ field)

/-- Epoch microseconds as text, through a double division, to a timestamp. -/
def microsToTimestamp (column : Option String) : Option Int :=
  column.bind fun text =>
    (sp.castDouble text).bind fun micros =>
      (sp.fromUnixtime (sp.divide micros 1000000)).bind sp.castTimestamp

/-- A code, such as a currency or a country. -/
def canonicalCode (column : Option String) : Option String :=
  column.map fun text => sp.upper (trim text)

/-- A name, such as a method or a status. -/
def canonicalText (column : Option String) : Option String :=
  column.map fun text => underscoreSpaces (sp.lower (trim text))

/-- The operation of a record. -/
def opOf (value : Option Value) : Option String := jsonField sp value "$.op"

/-- The projection of one envelope. The identity and the timestamps coalesce over
the two sections, the other columns are read from `after` alone. -/
def changeOf (now : Int) (value : Option Value) : Change where
  op := opOf sp value
  sourceLsn := (jsonField sp value "$.source.lsn").bind sp.castLong
  paymentId := ((afterField sp value "payment_id").or
    (beforeField sp value "payment_id")).bind sp.castLong
  merchantId := (afterField sp value "merchant_id").bind sp.castLong
  amount := (afterField sp value "amount").bind sp.castDecimal
  currency := canonicalCode sp (afterField sp value "currency")
  paymentMethod := canonicalText sp (afterField sp value "payment_method")
  paymentStatus := canonicalText sp (afterField sp value "payment_status")
  countryCode := canonicalCode sp (afterField sp value "country_code")
  createdAt := microsToTimestamp sp ((afterField sp value "created_at").or
    (beforeField sp value "created_at"))
  updatedAt := microsToTimestamp sp ((afterField sp value "updated_at").or
    (beforeField sp value "updated_at"))
  ingestedAt := now

/-- A projected row, with the offset that breaks ties inside the batch. -/
structure Projected extends Change where
  kafkaOffset : Int
  deriving DecidableEq, Repr

def project (now : Int) (r : Record Value) : Projected :=
  { changeOf sp now r.kafkaValue with kafkaOffset := r.kafkaOffset }

/-- The window order: `source_lsn` descending with NULLs last, then `kafka_offset`. -/
def sequenceKey (r : Projected) : WithBot Int ×ₗ Int :=
  toLex (Sql.nullsLast r.sourceLsn, r.kafkaOffset)

/-- The projected row of `k` that the batch keeps. -/
def winner (now : Int) (records : List (Record Value)) (k : Option Int) : Option Projected :=
  Sql.latestOf (fun r : Projected => r.paymentId) sequenceKey (records.map (project sp now)) k

/-- The change set of a batch: one row for every payment, NULL included. -/
def buildChanges (now : Int) (records : List (Record Value)) : List Change :=
  (Sql.latestBy (fun r : Projected => r.paymentId) sequenceKey
    (records.map (project sp now))).map Projected.toChange

end Projection

variable {sp : SparkFunctions Value Double} {now : Int} {records : List (Record Value)}
variable {k : Option Int} {w : Projected} {r : Record Value}

@[simp] theorem ignoringIngestedAt_changeOf (now : Int) (value : Option Value) :
    (changeOf sp now value).toSilverRow.ignoringIngestedAt =
      (changeOf sp 0 value).toSilverRow := rfl

theorem sequenceKey_le {a b : Projected} (h : sequenceKey a ≤ sequenceKey b) :
    Sql.nullsLast a.sourceLsn ≤ Sql.nullsLast b.sourceLsn := by
  rw [sequenceKey, sequenceKey, Prod.Lex.toLex_le_toLex] at h
  rcases h with hlt | ⟨heq, _⟩
  · exact hlt.le
  · exact heq.le

/-- The winner is the projection of a record of the batch. -/
theorem winner_mem (h : winner sp now records k = some w) :
    ∃ r ∈ records, project sp now r = w ∧ w.paymentId = k := by
  obtain ⟨hmem, hk⟩ := Sql.latestOf_mem h
  obtain ⟨r, hr, rfl⟩ := List.mem_map.mp hmem
  exact ⟨r, hr, rfl, hk⟩

/-- No record of the same payment has a greater LSN than the winner. -/
theorem le_winner (h : winner sp now records k = some w) (hr : r ∈ records)
    (hk : (changeOf sp now r.kafkaValue).paymentId = k) :
    Sql.nullsLast (changeOf sp now r.kafkaValue).sourceLsn ≤ Sql.nullsLast w.sourceLsn :=
  sequenceKey_le (Sql.le_latestOf h (List.mem_map_of_mem hr) hk)

theorem winner_isSome (hr : r ∈ records) (hk : (changeOf sp now r.kafkaValue).paymentId = k) :
    ∃ w, winner sp now records k = some w :=
  Sql.latestOf_isSome _ _ (List.mem_map_of_mem hr) hk

/-- The change set holds exactly the winner of every payment. -/
theorem partition_buildChanges (k : Option Int) :
    Sql.partition (fun c : Change => c.paymentId) k (buildChanges sp now records) =
      ((winner sp now records k).map Projected.toChange).toList := by
  have kept := Sql.partition_latestBy (fun r : Projected => r.paymentId) sequenceKey
    (records.map (project sp now)) k
  rw [buildChanges, Sql.partition, List.filter_map, Option.toList_map]
  exact congrArg (List.map Projected.toChange) kept

theorem mem_buildChanges {c : Change} : c ∈ buildChanges sp now records ↔
    ∃ w, winner sp now records c.paymentId = some w ∧ w.toChange = c := by
  have h : c ∈ buildChanges sp now records ↔
      c ∈ Sql.partition (fun c : Change => c.paymentId) c.paymentId
        (buildChanges sp now records) := by simp
  rw [h, partition_buildChanges]
  simp

end PaymentsPlatform.Silver
