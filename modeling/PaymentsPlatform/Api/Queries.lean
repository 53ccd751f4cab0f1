import PaymentsPlatform.Text.Join
import PaymentsPlatform.Time.Calendar

/-!
# The queries of the serving API

`api/src/queries.py`: filters and cursors compile to SQL text with parameters. Each
predicate carries its text, its parameters and the rows it keeps, so that a query is
both the text that is sent to Trino and what Trino answers on a gold table.
-/

namespace PaymentsPlatform.Api

/-- A row of the gold table; volumes are in cents, rates are read as exact numbers. -/
structure GoldRow where
  paymentHour : DateTime
  countryCode : String
  paymentMethod : String
  paymentCount : Int
  grossVolume : Int
  authRate : ℚ
  deriving DecidableEq

/-- User-supplied filters; `none` means "do not constrain". -/
structure MetricsFilter where
  start : Option DateTime
  end_ : Option DateTime
  countryCode : Option String
  paymentMethod : Option String
  deriving DecidableEq

/-- The last row a client received. -/
@[ext] structure Cursor where
  paymentHour : DateTime
  countryCode : String
  paymentMethod : String
  deriving DecidableEq

/-- A bound parameter. -/
inductive Param where
  | datetime (t : DateTime)
  | text (s : String)
  deriving DecidableEq

/-- The order of `SORT_KEYS`, strings by code points. -/
abbrev SortKey := Int ×ₗ String ×ₗ String

def GoldRow.sortKey (r : GoldRow) : SortKey :=
  toLex (r.paymentHour.instant, toLex (r.countryCode, r.paymentMethod))

def Cursor.sortKey (c : Cursor) : SortKey :=
  toLex (c.paymentHour.instant, toLex (c.countryCode, c.paymentMethod))

/-- A clause of the `WHERE`. -/
inductive Predicate where
  | startsAt (t : DateTime)
  | endsBefore (t : DateTime)
  | country (code : String)
  | method (name : String)
  | after (c : Cursor)
  deriving DecidableEq

namespace Predicate

def text : Predicate → String
  | startsAt _ => "payment_hour >= ?"
  | endsBefore _ => "payment_hour < ?"
  | country _ => "country_code = ?"
  | method _ => "payment_method = ?"
  | after _ => "(payment_hour > ? OR (payment_hour = ? AND country_code > ?)" ++
      " OR (payment_hour = ? AND country_code = ? AND payment_method > ?))"

def params : Predicate → List Param
  | startsAt t => [.datetime t]
  | endsBefore t => [.datetime t]
  | country code => [.text code]
  | method name => [.text name]
  | after c =>
      [.datetime c.paymentHour, .datetime c.paymentHour, .text c.countryCode,
       .datetime c.paymentHour, .text c.countryCode, .text c.paymentMethod]

/-- The rows the clause keeps. -/
def holds : Predicate → GoldRow → Bool
  | startsAt t, r => t.instant ≤ r.paymentHour.instant
  | endsBefore t, r => r.paymentHour.instant < t.instant
  | country code, r => r.countryCode = code
  | method name, r => r.paymentMethod = name
  | after c, r =>
      c.paymentHour.instant < r.paymentHour.instant ∨
        r.paymentHour.instant = c.paymentHour.instant ∧ c.countryCode < r.countryCode ∨
        r.paymentHour.instant = c.paymentHour.instant ∧ r.countryCode = c.countryCode ∧
          c.paymentMethod < r.paymentMethod

end Predicate

/-- A predicate for each filter that is set. -/
def filterPredicates (f : MetricsFilter) : List Predicate :=
  (f.start.map .startsAt).toList ++ (f.end_.map .endsBefore).toList ++
    (f.countryCode.map .country).toList ++ (f.paymentMethod.map .method).toList

/-- The clauses of a page: the filters, and then the keyset predicate. -/
def pagePredicates (f : MetricsFilter) (after : Option Cursor) : List Predicate :=
  filterPredicates f ++ (after.map .after).toList

def goldTable : String := "iceberg.analytics.payment_metrics_gold"

/-- The conjunction of some clauses. -/
def conjunction (predicates : List Predicate) : String :=
  Text.join " AND " (predicates.map Predicate.text)

/-- The end of a page query. -/
def orderAndLimit (limit : Nat) : String :=
  "ORDER BY payment_hour, country_code, payment_method\nLIMIT " ++ toString limit

def hourlyMetricsSql (f : MetricsFilter) (limit : Nat) (after : Option Cursor) :
    String × List Param :=
  let predicates := pagePredicates f after
  let where_ := if predicates.isEmpty then "" else "WHERE " ++ conjunction predicates ++ "\n"
  ("SELECT payment_hour, country_code, payment_method, payment_count, gross_volume, auth_rate\n" ++
      ("FROM " ++ goldTable ++ "\n" ++ (where_ ++ orderAndLimit limit)),
    predicates.flatMap Predicate.params)

def summarySql (f : MetricsFilter) : String × List Param :=
  let predicates := filterPredicates f
  let where_ := if predicates.isEmpty then "" else "\nWHERE " ++ conjunction predicates
  ("SELECT\n    count(*) AS bucket_count,\n" ++
      ("    coalesce(sum(payment_count), 0) AS payment_count,\n" ++
        ("    coalesce(sum(gross_volume), CAST(0 AS DECIMAL(18,2))) AS gross_volume,\n" ++
          ("    sum(auth_rate * payment_count) / NULLIF(sum(payment_count), 0) AS auth_rate\n" ++
            ("FROM " ++ goldTable ++ where_)))),
    predicates.flatMap Predicate.params)

/-- The rows of a table that some clauses keep. -/
def selectRows (table : List GoldRow) (predicates : List Predicate) : List GoldRow :=
  table.filter fun r => predicates.all fun p => p.holds r

/-- The answer to `hourlyMetricsSql`. -/
def hourlyRows (table : List GoldRow) (f : MetricsFilter) (limit : Nat) (after : Option Cursor) :
    List GoldRow :=
  ((selectRows table (pagePredicates f after)).insertionSort
    fun x y => x.sortKey ≤ y.sortKey).take limit

/-- The roll-up totals of a window. -/
structure SummaryRow where
  bucketCount : Int
  paymentCount : Int
  grossVolume : Int
  authRate : Option ℚ
  deriving DecidableEq

/-- The answer to `summarySql`: the rate is weighted by the counts, NULL without any. -/
def summaryRow (table : List GoldRow) (f : MetricsFilter) : SummaryRow :=
  let rows := selectRows table (filterPredicates f)
  let payments := (rows.map GoldRow.paymentCount).sum
  { bucketCount := rows.length
    paymentCount := payments
    grossVolume := (rows.map GoldRow.grossVolume).sum
    authRate := if payments = 0 then none
      else some ((rows.map fun r => r.authRate * (r.paymentCount : ℚ)).sum / (payments : ℚ)) }

end PaymentsPlatform.Api
