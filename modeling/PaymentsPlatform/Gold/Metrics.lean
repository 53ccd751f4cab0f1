import PaymentsPlatform.Silver.Quality
import PaymentsPlatform.Sql.Group

/-!
# The gold table

`config/spark/jobs/gold_metrics.py`: hours, countries and methods with their counts,
volumes and authorization rates. The job recomputes the whole table from silver and
overwrites what was there. The columns of gold are nullable; a sum that does not fit its
`DECIMAL(18,2)` column is NULL. Averages are read as exact numbers.
-/

namespace PaymentsPlatform.Gold

open Silver (SilverRow sparkSum)

/-- A row of `payment_metrics_gold`; hours in microseconds of the epoch, volumes in
cents. -/
structure GoldMetric where
  paymentHour : Option Int
  countryCode : Option String
  paymentMethod : Option String
  paymentCount : Int
  grossVolume : Option Int
  authorizedVolume : Option Int
  authRate : ℚ
  deriving DecidableEq

/-- The grouping columns. -/
abbrev GroupKey := Option Int × Option String × Option String

/-- `CAST(... AS DECIMAL(18,2))` of a number of cents. -/
def castDecimal18 (sum : Option Int) : Option Int :=
  sum.filter fun cents => cents.natAbs < 10 ^ 18

/-- `payment_status = 'authorized'` as the condition of a `CASE`. -/
def isAuthorized (r : SilverRow) : Bool :=
  (Sql.eq r.paymentStatus (some "authorized")).holds

/-- `avg` of a column without NULLs. -/
def average (column : List ℚ) : ℚ := column.sum / column.length

section Job

variable (zone : Int → Int)

/-- `date_trunc('hour', ...)` in a time zone with the UTC offset `zone t` at `t`. -/
def truncHour (t : Int) : Int := t - (t + zone t) % 3600000000

def groupKey (r : SilverRow) : GroupKey :=
  (r.createdAt.map (truncHour zone), r.countryCode, r.paymentMethod)

/-- The columns of one group. -/
def metricsOf (key : GroupKey) (rows : List SilverRow) : GoldMetric where
  paymentHour := key.1
  countryCode := key.2.1
  paymentMethod := key.2.2
  paymentCount := rows.length
  grossVolume := castDecimal18 (sparkSum (rows.map fun r => r.amount))
  authorizedVolume := castDecimal18
    (sparkSum (rows.map fun r => if isAuthorized r then r.amount else some 0))
  authRate := average (rows.map fun r => if isAuthorized r then 1 else 0)

/-- `main`: the new gold table, whatever it held before. -/
def goldMetrics (_previous : List GoldMetric) (silver : List SilverRow) : List GoldMetric :=
  (Sql.groups (groupKey zone) silver).map fun g => metricsOf g.1 g.2

end Job

def GoldMetric.key (g : GoldMetric) : GroupKey := (g.paymentHour, g.countryCode, g.paymentMethod)

variable {zone : Int → Int} {previous : List GoldMetric} {silver rows : List SilverRow}
variable {key : GroupKey}

/-- Every group has one row in gold. -/
theorem nodup_goldMetrics (zone : Int → Int) (previous : List GoldMetric)
    (silver : List SilverRow) : ((goldMetrics zone previous silver).map GoldMetric.key).Nodup := by
  rw [goldMetrics, List.map_map]
  exact Sql.nodup_groups (groupKey zone) silver

/-- A sum over a group whose column has no NULL. -/
theorem sparkSum_map_some {α : Type} {rows : List α} (nonempty : rows ≠ []) (w : α → Int) :
    sparkSum (rows.map fun r => some (w r)) = some (rows.map w).sum := by
  have kept : (rows.map fun r => some (w r)).reduceOption = rows.map w := by
    rw [List.reduceOption, List.filterMap_map]
    exact congrFun List.filterMap_eq_map rows
  rw [sparkSum, kept]
  cases rows with
  | nil => exact absurd rfl nonempty
  | cons r rows => rfl

theorem sparkSum_map_some_getD {α : Type} (rows : List α) (w : α → Int) :
    (sparkSum (rows.map fun r => some (w r))).getD 0 = (rows.map w).sum := by
  rcases eq_or_ne rows [] with rfl | nonempty
  · rfl
  · rw [sparkSum_map_some nonempty, Option.getD_some]

theorem castDecimal18_of_lt {cents : Int} (fits : cents.natAbs < 10 ^ 18) :
    castDecimal18 (some cents) = some cents := by
  rw [castDecimal18, Option.filter_some, if_pos (decide_eq_true fits)]

theorem sum_indicator (p : SilverRow → Bool) (rows : List SilverRow) :
    (rows.map fun r => if p r then (1 : ℚ) else 0).sum = rows.countP p := by
  induction rows with
  | nil => rfl
  | cons r rows ih => cases hr : p r <;> simp [hr, ih, add_comm]

/-- The rate times the count is the number of authorized rows. -/
theorem authRate_mul_count (nonempty : rows ≠ []) :
    (metricsOf key rows).authRate * ((metricsOf key rows).paymentCount : ℚ) =
      (rows.map fun r => if isAuthorized r then (1 : ℚ) else 0).sum := by
  have positive : (rows.length : ℚ) ≠ 0 :=
    Nat.cast_ne_zero.mpr fun h => nonempty (List.eq_nil_of_length_eq_zero h)
  rw [metricsOf, average, List.length_map, Int.cast_natCast, div_mul_cancel₀ _ positive]

end PaymentsPlatform.Gold
