import PaymentsPlatform.Api.Queries
import PaymentsPlatform.Gold.Metrics

/-!
# Rolling gold up

`summary_sql` of `api/src/queries.py`, evaluated on the nullable columns of the gold
table (`goldSummary`); on rows that a client can read it is the API's `summaryRow`
(`goldSummary_of_reads`). `directSummary` is what a summary means: it counts silver rows.
`summary_of_gold` says that the two-step aggregation through gold gives it.
-/

namespace PaymentsPlatform.Gold

open Silver (SilverRow sparkSum)
open Api (Predicate MetricsFilter SummaryRow GoldRow filterPredicates selectRows summaryRow)

/-- The start of the epoch on the scale of `DateTime.instant`. -/
def unixEpoch : Int := 719163 * 86400000000

example : (⟨⟨1970, 1, 1, by decide⟩, 0, 0, 0, 0, none, by decide, by decide⟩ : DateTime).instant =
    unixEpoch := by
  decide

/-- The truth value of a clause on the grouping columns of a gold row. -/
def truth : Predicate → GroupKey → Sql.Truth
  | .startsAt t, key => (Sql.lt key.1 (some (t.instant - unixEpoch))).not
  | .endsBefore t, key => Sql.lt key.1 (some (t.instant - unixEpoch))
  | .country code, key => Sql.eq key.2.1 (some code)
  | .method name, key => Sql.eq key.2.2 (some name)
  | .after c, key =>
      let hour := some (c.paymentHour.instant - unixEpoch)
      (Sql.lt hour key.1).or
        (((Sql.eq key.1 hour).and (Sql.lt (some c.countryCode) key.2.1)).or
          ((Sql.eq key.1 hour).and ((Sql.eq key.2.1 (some c.countryCode)).and
            (Sql.lt (some c.paymentMethod) key.2.2))))

/-- The grouping columns satisfy all clauses of the filter. -/
def satisfies (f : MetricsFilter) (key : GroupKey) : Bool :=
  (filterPredicates f).all fun p => (truth p key).holds

/-- The answer to `summarySql` on a gold table. -/
def goldSummary (table : List GoldMetric) (f : MetricsFilter) : SummaryRow :=
  let rows := table.filter fun g => satisfies f g.key
  let payments := (rows.map GoldMetric.paymentCount).sum
  { bucketCount := rows.length
    paymentCount := payments
    grossVolume := (sparkSum (rows.map GoldMetric.grossVolume)).getD 0
    authRate := if payments = 0 then none
      else some ((rows.map fun g => g.authRate * (g.paymentCount : ℚ)).sum / (payments : ℚ)) }

/-- The amount of a payment, in cents. -/
def amountOf (r : SilverRow) : Int := r.amount.getD 0

/-- What a summary of a silver table means. -/
def directSummary (zone : Int → Int) (silver : List SilverRow) (f : MetricsFilter) : SummaryRow :=
  let rows := silver.filter fun r => satisfies f (groupKey zone r)
  { bucketCount := (rows.map (groupKey zone)).dedup.length
    paymentCount := rows.length
    grossVolume := (rows.map amountOf).sum
    authRate := if rows = [] then none
      else some ((rows.countP isAuthorized : ℚ) / (rows.length : ℚ)) }

/-- What gold relies on: no NULL where it looks, amounts that are not negative, and sums
of the groups that fit their column. -/
structure Summable (zone : Int → Int) (silver : List SilverRow) : Prop where
  createdAt : ∀ r ∈ silver, ∃ t, r.createdAt = some t
  countryCode : ∀ r ∈ silver, ∃ c, r.countryCode = some c
  paymentMethod : ∀ r ∈ silver, ∃ m, r.paymentMethod = some m
  amount : ∀ r ∈ silver, ∃ a, r.amount = some a ∧ 0 ≤ a
  fits : ∀ key, ((Sql.partition (groupKey zone) key silver).map amountOf).sum < 10 ^ 18

variable {zone : Int → Int} {previous : List GoldMetric} {silver : List SilverRow}
variable {f : MetricsFilter} {key : GroupKey}

/-- A filter on columns without NULL, spelled out. -/
theorem satisfies_iff {hour : Int} {country method : String} :
    satisfies f (some hour, some country, some method) = true ↔
      (∀ s, f.start = some s → s.instant ≤ unixEpoch + hour) ∧
      (∀ e, f.end_ = some e → unixEpoch + hour < e.instant) ∧
      (∀ c, f.countryCode = some c → country = c) ∧
      ∀ m, f.paymentMethod = some m → method = m := by
  have start : ∀ s : DateTime, (truth (.startsAt s) (some hour, some country, some method)).holds =
      decide (s.instant ≤ unixEpoch + hour) := by
    intro s
    simp only [truth, Sql.lt, Sql.Truth.not, Option.map_some, Sql.Truth.holds_some, ← decide_not]
    exact decide_eq_decide.mpr (by omega)
  have end_ : ∀ e : DateTime, (truth (.endsBefore e) (some hour, some country, some method)).holds =
      decide (unixEpoch + hour < e.instant) := by
    intro e
    simp only [truth, Sql.lt, Sql.Truth.holds_some]
    exact decide_eq_decide.mpr (by omega)
  obtain ⟨s, e, c, m⟩ := f
  simp only [satisfies, filterPredicates, List.all_append, Bool.and_eq_true, and_assoc]
  refine and_congr ?_ (and_congr ?_ (and_congr ?_ ?_))
  · cases s <;> simp [start]
  · cases e <;> simp [end_]
  · cases c <;> simp [truth, Sql.eq]
  · cases m <;> simp [truth, Sql.eq]

/-- What a client reads of a gold row without NULLs. -/
structure Reads (row : GoldRow) (g : GoldMetric) : Prop where
  paymentHour : g.paymentHour = some (row.paymentHour.instant - unixEpoch)
  countryCode : g.countryCode = some row.countryCode
  paymentMethod : g.paymentMethod = some row.paymentMethod
  paymentCount : g.paymentCount = row.paymentCount
  grossVolume : g.grossVolume = some row.grossVolume
  authRate : g.authRate = row.authRate

theorem Reads.truth_holds {row : GoldRow} {g : GoldMetric} (reads : Reads row g) (p : Predicate) :
    (truth p g.key).holds = p.holds row := by
  rw [GoldMetric.key, reads.paymentHour, reads.countryCode, reads.paymentMethod]
  cases p with
  | startsAt t => simp [truth, Predicate.holds, Sql.lt, Sql.Truth.not, ← decide_not]
  | endsBefore t => simp [truth, Predicate.holds, Sql.lt]
  | country code => simp [truth, Predicate.holds, Sql.eq]
  | method name => simp [truth, Predicate.holds, Sql.eq]
  | after c => simp [truth, Predicate.holds, Sql.eq, Sql.lt]

/-- On rows that can be read the summary is the one the API computes. -/
theorem goldSummary_of_reads {rows : List GoldRow} {table : List GoldMetric}
    (reads : List.Forall₂ Reads rows table) (f : MetricsFilter) :
    goldSummary table f = summaryRow rows f := by
  have selected : List.Forall₂ Reads (selectRows rows (filterPredicates f))
      (table.filter fun g => satisfies f g.key) := by
    rw [selectRows]
    induction reads with
    | nil => exact .nil
    | @cons row g rows table hread _ ih =>
        have same : satisfies f g.key = (filterPredicates f).all fun p => p.holds row := by
          simp only [satisfies, hread.truth_holds]
        cases hrow : (filterPredicates f).all fun p => p.holds row with
        | false => simpa [List.filter_cons, same, hrow] using ih
        | true => simpa [List.filter_cons, same, hrow] using ⟨hread, ih⟩
  have columns : ∀ {rows : List GoldRow} {table : List GoldMetric}, List.Forall₂ Reads rows table →
      table.length = rows.length ∧
      table.map GoldMetric.paymentCount = rows.map GoldRow.paymentCount ∧
      table.map GoldMetric.grossVolume = rows.map (fun row => some row.grossVolume) ∧
      (table.map fun g => g.authRate * (g.paymentCount : ℚ)) =
        rows.map fun row => row.authRate * (row.paymentCount : ℚ) := by
    intro rows table h
    induction h with
    | nil => exact ⟨rfl, rfl, rfl, rfl⟩
    | cons hread _ ih =>
        simp [hread.paymentCount, hread.grossVolume, hread.authRate, ih]
  obtain ⟨length, counts, volumes, rates⟩ := columns selected
  simp only [goldSummary, summaryRow, length, counts, volumes, rates, sparkSum_map_some_getD]

theorem Summable.nonneg (summable : Summable zone silver) {r : SilverRow} (hr : r ∈ silver) :
    0 ≤ amountOf r := by
  obtain ⟨a, ha, hpos⟩ := summable.amount r hr
  rw [amountOf, ha, Option.getD_some]
  exact hpos

/-- A part of a table is summable with it. -/
theorem Summable.filter (summable : Summable zone silver) (p : SilverRow → Bool) :
    Summable zone (silver.filter p) where
  createdAt r hr := summable.createdAt r (List.mem_filter.mp hr).1
  countryCode r hr := summable.countryCode r (List.mem_filter.mp hr).1
  paymentMethod r hr := summable.paymentMethod r (List.mem_filter.mp hr).1
  amount r hr := summable.amount r (List.mem_filter.mp hr).1
  fits key := by
    have part : ((Sql.partition (groupKey zone) key (silver.filter p)).map amountOf).Sublist
        ((Sql.partition (groupKey zone) key silver).map amountOf) :=
      (List.filter_sublist.filter _).map _
    refine (part.sum_le_sum fun x hx => ?_).trans_lt (summable.fits key)
    obtain ⟨r, hr, rfl⟩ := List.mem_map.mp hx
    exact summable.nonneg (Sql.mem_partition.mp hr).1

/-- A column of amounts without NULLs. -/
theorem map_amount {rows : List SilverRow} (amounts : ∀ r ∈ rows, ∃ a, r.amount = some a) :
    (rows.map fun r => r.amount) = rows.map fun r => some (amountOf r) := by
  refine List.map_congr_left fun r hr => ?_
  obtain ⟨a, ha⟩ := amounts r hr
  rw [amountOf, ha, Option.getD_some]

/-- Where gold has no NULL for a volume, the sums of the groups fit its column. -/
theorem fits_of_grossVolume (amounts : ∀ r ∈ silver, ∃ a, r.amount = some a)
    (valued : ∀ g ∈ goldMetrics zone previous silver, ∃ v, g.grossVolume = some v)
    (key : GroupKey) :
    ((Sql.partition (groupKey zone) key silver).map amountOf).sum < 10 ^ 18 := by
  by_cases present : key ∈ silver.map (groupKey zone)
  · have hg : (key, Sql.partition (groupKey zone) key silver) ∈ Sql.groups (groupKey zone) silver :=
      Sql.mem_groups.mpr ⟨present, rfl⟩
    have nonempty : Sql.partition (groupKey zone) key silver ≠ [] := Sql.group_ne_nil hg
    have members : ∀ r ∈ Sql.partition (groupKey zone) key silver, ∃ a, r.amount = some a :=
      fun r hr => amounts r (Sql.mem_partition.mp hr).1
    obtain ⟨v, hv⟩ := valued _ (List.mem_map_of_mem hg)
    change castDecimal18 (sparkSum
      ((Sql.partition (groupKey zone) key silver).map fun r => r.amount)) = some v at hv
    rw [map_amount members, sparkSum_map_some nonempty, castDecimal18] at hv
    obtain ⟨same, fits⟩ := Option.filter_eq_some_iff.mp hv
    obtain rfl := Option.some.inj same
    have small := of_decide_eq_true fits
    omega
  · have nobody : Sql.partition (groupKey zone) key silver = [] := by
      refine List.eq_nil_iff_forall_not_mem.mpr fun r hr => present ?_
      obtain ⟨hmem, rfl⟩ := Sql.mem_partition.mp hr
      exact List.mem_map_of_mem hmem
    rw [nobody]
    decide

/-- The gross volume of a group is the exact sum. -/
theorem grossVolume_of_summable (summable : Summable zone silver)
    {g : GroupKey × List SilverRow} (hg : g ∈ Sql.groups (groupKey zone) silver) :
    (metricsOf g.1 g.2).grossVolume = some (g.2.map amountOf).sum := by
  obtain ⟨_, hmembers⟩ := Sql.mem_groups.mp hg
  have members : ∀ r ∈ g.2, r ∈ silver := fun r hr => by
    rw [hmembers] at hr
    exact (Sql.mem_partition.mp hr).1
  have amounts : ∀ r ∈ g.2, ∃ a, r.amount = some a := fun r hr => by
    obtain ⟨a, ha, _⟩ := summable.amount r (members r hr)
    exact ⟨a, ha⟩
  have nonneg : 0 ≤ (g.2.map amountOf).sum := by
    refine List.sum_nonneg fun x hx => ?_
    obtain ⟨r, hr, rfl⟩ := List.mem_map.mp hx
    exact summable.nonneg (members r hr)
  have fits : (g.2.map amountOf).sum < 10 ^ 18 := hmembers ▸ summable.fits g.1
  rw [metricsOf, map_amount amounts, sparkSum_map_some (Sql.group_ne_nil hg)]
  exact castDecimal18_of_lt (by omega)

/-- The gold rows of a filter are the groups of the silver rows it selects. -/
theorem filter_goldMetrics (f : MetricsFilter) :
    (goldMetrics zone previous silver).filter (fun g => satisfies f g.key) =
      (Sql.groups (groupKey zone) (silver.filter fun r => satisfies f (groupKey zone r))).map
        fun g => metricsOf g.1 g.2 := by
  rw [goldMetrics, List.filter_map, ← Sql.filter_groups (satisfies f)]
  rfl

private theorem sum_paymentCount (rows : List SilverRow) :
    ((Sql.groups (groupKey zone) rows).map fun g => (metricsOf g.1 g.2).paymentCount).sum =
      rows.length := by
  have each : ∀ g : GroupKey × List SilverRow,
      (metricsOf g.1 g.2).paymentCount = (g.2.map fun _ => (1 : Int)).sum := by
    intro g
    simp [metricsOf]
  simp only [each]
  rw [Sql.sum_groups]
  simp

private theorem sum_weighted (rows : List SilverRow) :
    ((Sql.groups (groupKey zone) rows).map fun g =>
      (metricsOf g.1 g.2).authRate * ((metricsOf g.1 g.2).paymentCount : ℚ)).sum =
        (rows.countP isAuthorized : ℚ) := by
  have each : ((Sql.groups (groupKey zone) rows).map fun g =>
      (metricsOf g.1 g.2).authRate * ((metricsOf g.1 g.2).paymentCount : ℚ)) =
        (Sql.groups (groupKey zone) rows).map fun g =>
          (g.2.map fun r => if isAuthorized r then (1 : ℚ) else 0).sum :=
    List.map_congr_left fun g hg => authRate_mul_count (Sql.group_ne_nil hg)
  rw [each, Sql.sum_groups, sum_indicator]

/-- The summary of gold is the summary of silver. -/
theorem goldSummary_goldMetrics (summable : Summable zone silver) (f : MetricsFilter) :
    goldSummary (goldMetrics zone previous silver) f = directSummary zone silver f := by
  set rows := silver.filter fun r => satisfies f (groupKey zone r) with hrows
  have volumes : ((Sql.groups (groupKey zone) rows).map fun g => (metricsOf g.1 g.2).grossVolume) =
      (Sql.groups (groupKey zone) rows).map fun g => some (g.2.map amountOf).sum :=
    List.map_congr_left fun g hg => grossVolume_of_summable (summable.filter _) hg
  have empty : ((rows.length : Int) = 0) = (rows = []) := by
    rw [Int.natCast_eq_zero, List.length_eq_zero_iff]
  simp only [goldSummary, directSummary, filter_goldMetrics, ← hrows, List.map_map,
    Function.comp_def, List.length_map, Sql.length_groups, sum_paymentCount, volumes,
    sparkSum_map_some_getD, Sql.sum_groups, sum_weighted, empty, Int.cast_natCast]

/-- The filter with another window. -/
def window (f : MetricsFilter) (start end_ : DateTime) : MetricsFilter :=
  { f with start := some start, end_ := some end_ }

/-- A row is in a window exactly when it is in one of two adjacent parts of it, and it is
never in both. -/
theorem satisfies_window (complete : ∃ hour country method,
      key = (some hour, some country, some method)) {start mid end_ : DateTime}
    (before : start.instant ≤ mid.instant) (after : mid.instant ≤ end_.instant) :
    satisfies (window f start end_) key =
        (satisfies (window f start mid) key || satisfies (window f mid end_) key) ∧
      ¬(satisfies (window f start mid) key = true ∧ satisfies (window f mid end_) key = true) := by
  obtain ⟨hour, country, method, rfl⟩ := complete
  constructor
  · rw [Bool.eq_iff_iff, Bool.or_eq_true, satisfies_iff, satisfies_iff, satisfies_iff]
    simp only [window, Option.some.injEq, forall_eq']
    constructor
    · rintro ⟨hstart, hend, rest⟩
      by_cases hmid : unixEpoch + hour < mid.instant
      · exact .inl ⟨hstart, hmid, rest⟩
      · exact .inr ⟨not_lt.mp hmid, hend, rest⟩
    · rintro (⟨hstart, hmid, rest⟩ | ⟨hmid, hend, rest⟩)
      · exact ⟨hstart, hmid.trans_le after, rest⟩
      · exact ⟨before.trans hmid, hend, rest⟩
  · rw [satisfies_iff, satisfies_iff]
    simp only [window, Option.some.injEq, forall_eq']
    rintro ⟨⟨_, hmid, _⟩, hmid', _⟩
    exact absurd hmid (not_lt.mpr hmid')

/-- Rolling up the gold table that the job writes from a summable silver table gives the
summary of silver, whatever gold held before; the counts and volumes of adjacent windows
add up. -/
theorem summary_of_gold (summable : Summable zone silver) (previous : List GoldMetric) :
    (∀ f, goldSummary (goldMetrics zone previous silver) f = directSummary zone silver f) ∧
    ∀ (f : MetricsFilter) (start mid end_ : DateTime), start.instant ≤ mid.instant →
      mid.instant ≤ end_.instant →
      (goldSummary (goldMetrics zone previous silver) (window f start mid)).paymentCount +
          (goldSummary (goldMetrics zone previous silver) (window f mid end_)).paymentCount =
        (goldSummary (goldMetrics zone previous silver) (window f start end_)).paymentCount ∧
      (goldSummary (goldMetrics zone previous silver) (window f start mid)).grossVolume +
          (goldSummary (goldMetrics zone previous silver) (window f mid end_)).grossVolume =
        (goldSummary (goldMetrics zone previous silver) (window f start end_)).grossVolume := by
  refine ⟨goldSummary_goldMetrics summable, fun f start mid end_ before after => ?_⟩
  have complete : ∀ r ∈ silver, ∃ hour country method,
      groupKey zone r = (some hour, some country, some method) := by
    intro r hr
    obtain ⟨t, ht⟩ := summable.createdAt r hr
    obtain ⟨c, hc⟩ := summable.countryCode r hr
    obtain ⟨m, hm⟩ := summable.paymentMethod r hr
    exact ⟨truncHour zone t, c, m, by rw [groupKey, ht, hc, hm, Option.map_some]⟩
  have adds : ∀ w : SilverRow → Int,
      ((silver.filter fun r => satisfies (window f start mid) (groupKey zone r)).map w).sum +
          ((silver.filter fun r => satisfies (window f mid end_) (groupKey zone r)).map w).sum =
        ((silver.filter fun r => satisfies (window f start end_) (groupKey zone r)).map w).sum :=
    fun w => Sql.sum_filter_split w
      (fun r hr => (satisfies_window (complete r hr) before after).1)
      fun r hr => (satisfies_window (complete r hr) before after).2
  rw [goldSummary_goldMetrics summable, goldSummary_goldMetrics summable,
    goldSummary_goldMetrics summable]
  exact ⟨by simpa [directSummary] using adds fun _ => 1, adds amountOf⟩

/-- A payment of the first day of the epoch, in cents, with the hour it was made in. -/
def epochPayment (id hour cents : Int) (method : String) : SilverRow where
  paymentId := some id
  merchantId := some 7
  amount := some cents
  currency := some "USD"
  paymentMethod := some method
  paymentStatus := some "authorized"
  countryCode := some "US"
  createdAt := some (hour * 3600000000 + 123000000)
  updatedAt := some (hour * 3600000000 + 123000000)
  sourceLsn := some 10
  ingestedAt := 0

/-- Two payments in one group, and one in an hour and with a method of its own. -/
def threePayments : List SilverRow :=
  [epochPayment 1 1 100 "card", epochPayment 2 1 250 "card", epochPayment 3 2 400 "wallet"]

private theorem threePayments_summable : Summable (fun _ => 0) threePayments where
  createdAt := by simp [threePayments, epochPayment]
  countryCode := by simp [threePayments, epochPayment]
  paymentMethod := by simp [threePayments, epochPayment]
  amount := by simp [threePayments, epochPayment]
  fits key := by
    have whole : ((Sql.partition (groupKey fun _ => 0) key threePayments).map amountOf).Sublist
        (threePayments.map amountOf) := List.filter_sublist.map _
    exact (whole.sum_le_sum (by decide)).trans_lt (by decide)

/-- No filter at all. -/
def unfiltered : MetricsFilter := ⟨none, none, none, none⟩

theorem epochHour_valid (hour : Fin 24) : hour.val < 24 ∧ 0 < 60 ∧ 0 < 60 ∧ 0 < 1000000 :=
  ⟨hour.isLt, by decide⟩

/-- An hour of the first day of the epoch. -/
def epochHour (hour : Fin 24) : DateTime :=
  ⟨⟨1970, 1, 1, by decide⟩, hour, 0, 0, 0, none, epochHour_valid hour,
    DateTime.midnight_validOffset⟩

/-- The first two hours have the payments of the one group, the next two that of the other. -/
theorem summary_of_gold_sample :
    let gold := goldMetrics (fun _ => 0) [] threePayments
    goldSummary gold unfiltered = ⟨2, 3, 750, some 1⟩ ∧
      (goldSummary gold (window unfiltered (epochHour 0) (epochHour 2))).grossVolume = 350 ∧
      (goldSummary gold (window unfiltered (epochHour 2) (epochHour 4))).grossVolume = 400 ∧
      (goldSummary gold (window unfiltered (epochHour 0) (epochHour 4))).grossVolume = 750 := by
  intro gold
  obtain ⟨summary, adds⟩ := summary_of_gold threePayments_summable []
  have first : (goldSummary gold (window unfiltered (epochHour 0) (epochHour 2))).grossVolume =
      350 := by
    rw [summary]
    decide +kernel
  have second : (goldSummary gold (window unfiltered (epochHour 2) (epochHour 4))).grossVolume =
      400 := by
    rw [summary]
    decide +kernel
  have whole := (adds unfiltered (epochHour 0) (epochHour 2) (epochHour 4) (by decide)
    (by decide)).2
  rw [first, second] at whole
  refine ⟨?_, first, second, whole.symm⟩
  rw [summary]
  decide +kernel

end PaymentsPlatform.Gold
