import PaymentsPlatform.Acceptance.Pattern
import PaymentsPlatform.Gold.Metrics
import PaymentsPlatform.Silver.Contract

/-!
# The acceptance gate

`scripts/acceptance_checks.py`: counts over the three tables of the medallion, with what
is expected of each count. `checks_of_pipeline` says that the tables of any run of the
silver job from empty tables, followed by the gold job, pass every check on silver and
gold that expects zero.
-/

namespace PaymentsPlatform.Acceptance

open Silver (SilverRow SparkFunctions MicroBatch Tables DlqRow afterBatch afterBatches)
open Gold (GoldMetric GroupKey goldMetrics metricsOf groupKey isAuthorized)

/-- What the checks read: the values of bronze, the rows of silver and of gold. -/
structure Warehouse where
  bronze : List (Option String)
  silver : List SilverRow
  gold : List GoldMetric

def bronzeTable : String := "iceberg.analytics.payments_bronze"

def silverTable : String := "iceberg.analytics.payments_silver"

def goldTable : String := "iceberg.analytics.payment_metrics_gold"

def allowedMethods : List String := ["apple_pay", "bank_transfer", "card", "google_pay", "paypal"]

def allowedStatuses : List String :=
  ["authorized", "cancelled", "chargeback", "failed", "pending", "refunded"]

def quoted (values : List String) : String :=
  ", ".intercalate (values.map fun value => "'" ++ value ++ "'")

/-- A check: its name, its query with what it counts, and the message of its failure. -/
structure Check where
  name : String
  sql : String
  count : Warehouse → Nat
  message : String

/-- How many rows a condition is true for. -/
def countWhere {α : Type} (condition : α → Sql.Truth) (table : List α) : Nat :=
  table.countP fun r => (condition r).holds

/-- The checks of the gate, in their order. -/
def checks (ws : SpaceClass) : List Check :=
  [{ name := "has_bronze_rows"
     sql := "SELECT count(*) FROM " ++ bronzeTable
     count := fun w => w.bronze.length
     message := "bronze is empty -- CDC delivered nothing" },
   { name := "has_silver_rows"
     sql := "SELECT count(*) FROM " ++ silverTable
     count := fun w => w.silver.length
     message := "silver is empty -- the bronze -> silver transform produced no rows" },
   { name := "has_gold_rows"
     sql := "SELECT count(*) FROM " ++ goldTable
     count := fun w => w.gold.length
     message := "gold is empty -- the silver -> gold aggregation produced no rows" },
   { name := "no_null_gold_dimensions"
     sql := "SELECT count(*) FROM " ++ goldTable ++ " WHERE country_code IS NULL " ++
       "OR payment_method IS NULL OR payment_hour IS NULL"
     count := fun w => countWhere (fun g : GoldMetric =>
       ((Sql.isNull g.countryCode).or (Sql.isNull g.paymentMethod)).or
         (Sql.isNull g.paymentHour)) w.gold
     message := "gold rows exist with null grouping dimensions" },
   { name := "no_nonpositive_gold_counts"
     sql := "SELECT count(*) FROM " ++ goldTable ++ " WHERE payment_count <= 0"
     count := fun w => countWhere (fun g : GoldMetric =>
       (Sql.lt (some 0) (some g.paymentCount)).not) w.gold
     message := "gold rows exist with a non-positive payment_count" },
   { name := "no_out_of_range_auth_rate"
     sql := "SELECT count(*) FROM " ++ goldTable ++ " WHERE auth_rate < 0 OR auth_rate > 1"
     count := fun w => countWhere (fun g : GoldMetric =>
       (Sql.lt (some g.authRate) (some 0)).or (Sql.lt (some 1) (some g.authRate))) w.gold
     message := "auth_rate is a mean of a 0/1 indicator and cannot fall outside [0, 1]" },
   { name := "no_unknown_payment_methods"
     sql := "SELECT count(*) FROM " ++ silverTable ++ " WHERE payment_method NOT IN (" ++
       quoted allowedMethods ++ ")"
     count := fun w => countWhere (fun r : SilverRow =>
       (Sql.isIn r.paymentMethod allowedMethods).not) w.silver
     message := "silver contains a payment_method outside the canonical set" },
   { name := "no_unknown_payment_statuses"
     sql := "SELECT count(*) FROM " ++ silverTable ++ " WHERE payment_status NOT IN (" ++
       quoted allowedStatuses ++ ")"
     count := fun w => countWhere (fun r : SilverRow =>
       (Sql.isIn r.paymentStatus allowedStatuses).not) w.silver
     message := "silver contains a payment_status outside the canonical set" },
   { name := "no_null_silver_keys"
     sql := "SELECT count(*) FROM " ++ silverTable ++
       " WHERE payment_id IS NULL OR merchant_id IS NULL"
     count := fun w => countWhere (fun r : SilverRow =>
       (Sql.isNull r.paymentId).or (Sql.isNull r.merchantId)) w.silver
     message := "silver rows exist with null keys" },
   { name := "no_duplicate_silver_payment_ids"
     sql := "SELECT count(*) FROM (SELECT payment_id FROM " ++ silverTable ++
       " GROUP BY payment_id HAVING count(*) > 1)"
     count := fun w => (Sql.groups SilverRow.paymentId w.silver).countP fun g =>
       decide (1 < g.2.length)
     message := "silver holds duplicate payment_id rows -- the SCD-1 upsert regressed" },
   { name := "no_unhashed_pii_in_bronze"
     sql := "SELECT count(*) FROM " ++ bronzeTable ++
       " WHERE regexp_like(kafka_value, '\"shopper_id\"\\s*:\\s*[0-9]')"
     count := fun w => countWhere (fun value : Option String =>
       value.map fun text => hasRawId ws text.toList) w.bronze
     message := "unhashed shopper_id found in bronze -- PII masking regressed" }]

def startsWith (text name : String) : Bool := text.toList.isPrefixOf name.toList

/-- Whether a check passes: its name says which way the count has to be. -/
def evaluate (name : String) (count : Nat) : Bool :=
  if startsWith "has_" name then 0 < count else count = 0

variable {Value Double : Type} {sp : SparkFunctions Value Double} {tables : Tables Value}
variable {zone : Int → Int} {group : GroupKey × List SilverRow}

/-- The gate and the silver job name the same methods and statuses. -/
theorem allowedMethods_eq : allowedMethods = Silver.allowedPaymentMethods := rfl

theorem allowedStatuses_eq : allowedStatuses = Silver.allowedPaymentStatuses := rfl

theorem countWhere_eq_zero_iff {α : Type} {condition : α → Sql.Truth} {table : List α} :
    countWhere condition table = 0 ↔ ∀ r ∈ table, (condition r).holds = false := by
  rw [countWhere, List.countP_eq_zero]
  exact forall₂_congr fun _ _ => by rw [Bool.not_eq_true]

section Gold

theorem mem_of_mem_group (hgroup : group ∈ Sql.groups (groupKey zone) tables.silver)
    {r : SilverRow} (hr : r ∈ group.2) : r ∈ tables.silver := by
  rw [(Sql.mem_groups.mp hgroup).2] at hr
  exact (Sql.mem_partition.mp hr).1

theorem dimensions_of_group (checked : Silver.Checked tables)
    (hgroup : group ∈ Sql.groups (groupKey zone) tables.silver) :
    ∃ hour country method, group.1 = (some hour, some country, some method) := by
  obtain ⟨r, hr, hkey⟩ := List.mem_map.mp (Sql.mem_groups.mp hgroup).1
  obtain ⟨_, _, _, _, ⟨method, hmethod, _⟩, _, ⟨country, hcountry, _⟩, ⟨created, _, hcreated, _⟩,
    _⟩ := Silver.passesQuality_iff.mp (checked.passed r hr)
  exact ⟨Gold.truncHour zone created, country, method, by
    rw [← hkey, groupKey, hcreated, hcountry, hmethod, Option.map_some]⟩

theorem count_pos_of_group (hgroup : group ∈ Sql.groups (groupKey zone) tables.silver) :
    0 < (metricsOf group.1 group.2).paymentCount :=
  Int.natCast_pos.mpr (List.length_pos_of_ne_nil (Sql.group_ne_nil hgroup))

/-- A mean of zeros and ones lies between them. -/
theorem authRate_mem_of_group (hgroup : group ∈ Sql.groups (groupKey zone) tables.silver) :
    0 ≤ (metricsOf group.1 group.2).authRate ∧ (metricsOf group.1 group.2).authRate ≤ 1 := by
  have positive : (0 : ℚ) < group.2.length :=
    Nat.cast_pos.mpr (List.length_pos_of_ne_nil (Sql.group_ne_nil hgroup))
  have bounded : (group.2.countP isAuthorized : ℚ) ≤ group.2.length :=
    Nat.cast_le.mpr List.countP_le_length
  rw [metricsOf, Gold.average, Gold.sum_indicator, List.length_map]
  exact ⟨div_nonneg (Nat.cast_nonneg _) positive.le, (div_le_one positive).mpr bounded⟩

/-- The volume of a column that has a value in every row. -/
theorem sum_of_volume {rows : List SilverRow} (nonempty : rows ≠ [])
    {column : SilverRow → Option Int} {amount : SilverRow → Int}
    (each : ∀ r ∈ rows, column r = some (amount r)) {volume : Int}
    (h : Gold.castDecimal18 (Silver.sparkSum (rows.map column)) = some volume) :
    (rows.map amount).sum = volume := by
  have all : rows.map column = rows.map fun r => some (amount r) := List.map_congr_left each
  rw [all, Gold.sparkSum_map_some nonempty, Gold.castDecimal18, Option.filter_eq_some_iff] at h
  exact Option.some.inj h.1

/-- The authorized volume of a group is a part of its gross volume. -/
theorem volumes_of_group (checked : Silver.Checked tables)
    (hgroup : group ∈ Sql.groups (groupKey zone) tables.silver) {gross authorized : Int}
    (hgross : (metricsOf group.1 group.2).grossVolume = some gross)
    (hauthorized : (metricsOf group.1 group.2).authorizedVolume = some authorized) :
    0 ≤ authorized ∧ authorized ≤ gross := by
  have amounts : ∀ r ∈ group.2, r.amount = some (r.amount.getD 0) ∧ 0 ≤ r.amount.getD 0 := by
    intro r hr
    obtain ⟨_, _, ⟨a, ha, nonneg⟩, _⟩ :=
      Silver.passesQuality_iff.mp (checked.passed r (mem_of_mem_group hgroup hr))
    rw [ha]
    exact ⟨rfl, nonneg⟩
  have authorizedAmounts : ∀ r ∈ group.2, (if isAuthorized r then r.amount else some 0) =
      some (if isAuthorized r then r.amount.getD 0 else 0) := by
    intro r hr
    split
    · exact (amounts r hr).1
    · rfl
  have nonempty := Sql.group_ne_nil hgroup
  rw [← sum_of_volume nonempty (fun r hr => (amounts r hr).1) hgross,
    ← sum_of_volume nonempty authorizedAmounts hauthorized]
  constructor
  · refine List.sum_nonneg fun x hx => ?_
    obtain ⟨r, hr, rfl⟩ := List.mem_map.mp hx
    split
    · exact (amounts r hr).2
    · exact le_rfl
  · refine List.sum_le_sum fun r hr => ?_
    split
    · exact le_rfl
    · exact (amounts r hr).2

/-- A query on gold finds nothing when it finds no group. -/
theorem countWhere_goldMetrics (previous : List GoldMetric) {silver : List SilverRow}
    {condition : GoldMetric → Sql.Truth} (clean : ∀ group ∈ Sql.groups (groupKey zone) silver,
      (condition (metricsOf group.1 group.2)).holds = false) :
    countWhere condition (goldMetrics zone previous silver) = 0 := by
  refine countWhere_eq_zero_iff.mpr fun g hg => ?_
  obtain ⟨group, hgroup, rfl⟩ := List.mem_map.mp hg
  exact clean group hgroup

end Gold

/-- No payment has two rows. -/
theorem duplicates_eq_zero (checked : Silver.Checked tables) :
    ((Sql.groups SilverRow.paymentId tables.silver).countP fun g =>
      decide (1 < g.2.length)) = 0 := by
  rw [List.countP_eq_zero]
  intro g hg
  obtain ⟨hkey, hmembers⟩ := Sql.mem_groups.mp hg
  obtain ⟨r, hr, hid⟩ := List.mem_map.mp hkey
  obtain ⟨k, hk⟩ := checked.keyed.identified r hr
  have unique := checked.keyed.unique k
  rw [Silver.rowsOf, ← hk, hid, ← hmembers] at unique
  rw [decide_eq_true_eq]
  omega

/-- The tables that any run of the silver job leaves, from empty tables and over records of
any contents, and the gold table of the gold job pass every check on silver and gold that
expects zero; every group has one gold row, and authorized volumes are parts of gross
volumes. -/
theorem checks_of_pipeline (sp : SparkFunctions Value Double) (dlq : List (DlqRow Value))
    (batches : List (MicroBatch Value)) (zone : Int → Int) (previous : List GoldMetric)
    (bronze : List (Option String)) (ws : SpaceClass) :
    let silver := (afterBatches sp ⟨[], dlq⟩ batches).silver
    let gold := goldMetrics zone previous silver
    (∀ check ∈ checks ws, startsWith "no_" check.name = true →
      check.name ≠ "no_unhashed_pii_in_bronze" → check.count ⟨bronze, silver, gold⟩ = 0) ∧
    (gold.map GoldMetric.key).Nodup ∧
    ∀ g ∈ gold, ∀ gross authorized, g.grossVolume = some gross →
      g.authorizedVolume = some authorized → 0 ≤ authorized ∧ authorized ≤ gross := by
  intro silver gold
  have checked := Silver.checked_afterBatches sp dlq batches
  have row : ∀ r ∈ silver, _ := fun r hr => Silver.passesQuality_iff.mp (checked.passed r hr)
  refine ⟨?_, Gold.nodup_goldMetrics zone previous silver, ?_⟩
  · intro check hcheck expectsZero onGoldOrSilver
    simp only [checks, List.mem_cons, List.not_mem_nil, or_false] at hcheck
    rcases hcheck with rfl | rfl | rfl | rfl | rfl | rfl | rfl | rfl | rfl | rfl | rfl
    · exact absurd expectsZero (by decide)
    · exact absurd expectsZero (by decide)
    · exact absurd expectsZero (by decide)
    · refine countWhere_goldMetrics previous fun group hgroup => ?_
      obtain ⟨hour, country, method, hkey⟩ := dimensions_of_group checked hgroup
      simp [metricsOf, hkey]
    · refine countWhere_goldMetrics previous fun group hgroup => ?_
      have positive := count_pos_of_group hgroup
      simp [Sql.lt, Sql.Truth.not, positive]
    · refine countWhere_goldMetrics previous fun group hgroup => ?_
      obtain ⟨nonneg, bounded⟩ := authRate_mem_of_group hgroup
      simp [Sql.lt, nonneg, bounded]
    · refine countWhere_eq_zero_iff.mpr fun r hr => ?_
      obtain ⟨_, _, _, _, ⟨method, hmethod, allowed⟩, _⟩ := row r hr
      rw [hmethod, allowedMethods_eq]
      simpa [Sql.isIn, Sql.Truth.not] using allowed
    · refine countWhere_eq_zero_iff.mpr fun r hr => ?_
      obtain ⟨_, _, _, _, _, ⟨status, hstatus, allowed⟩, _⟩ := row r hr
      rw [hstatus, allowedStatuses_eq]
      simpa [Sql.isIn, Sql.Truth.not] using allowed
    · refine countWhere_eq_zero_iff.mpr fun r hr => ?_
      obtain ⟨⟨k, hk⟩, ⟨m, hm⟩, _⟩ := row r hr
      simp [hk, hm]
    · exact duplicates_eq_zero checked
    · exact absurd rfl onGoldOrSilver
  · intro g hg gross authorized hgross hauthorized
    obtain ⟨group, hgroup, rfl⟩ := List.mem_map.mp hg
    exact volumes_of_group checked hgroup hgross hauthorized

end PaymentsPlatform.Acceptance
