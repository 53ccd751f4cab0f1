import PaymentsPlatform.Snowflake.UsdFact
import PaymentsPlatform.Sql.Tests

/-!
# The gate of the warehouse

`dbt test` on what `dbt run` has built: the tests of the columns in
`snowflake_etl/dbt/models/schema.yml` and the queries of `snowflake_etl/dbt/tests/`. A test
fails with the rows it selects. `dbtTest_passes_iff` says when all of them pass: the tests
of the grains, of the counts and of the age of the fact are guards that no staged data can
fail, and the others come down to the conditions of `Servable` on the two staging models.
-/

namespace PaymentsPlatform.Snowflake

/-- The tables that `dbt run` builds for the tests; the staging models are views. -/
structure Marts where
  dimDate : List Int
  dimFxRates : List FxRate
  fctPaymentsUsd : List FctPayment

/-- `dbt run`, in the order of the references. -/
def dbtRun (payments : List StgPayment) (rates : List StgFxRate) : Marts :=
  let days := dimDate payments rates
  let dim := dimFxRates days rates
  ⟨days, dim, fctPaymentsUsd payments dim⟩

/-- `DATEADD('day', 1, now)`, in microseconds. -/
def dayAfter (now : Int) : Int := now + 86400000000

section Tests

variable (payments : List StgPayment) (marts : Marts)

/-- The days of a currency that have several rates. -/
def dimFxRatesGrainUnique : List ((Option String × Int) × List FxRate) :=
  Sql.duplicates FxRate.key marts.dimFxRates

/-- The payments that were updated after their row of the fact. -/
def factIsNotStale : List (StgPayment × FctPayment) :=
  (Sql.innerJoin (fun s f => Sql.eq f.paymentId s.paymentId) payments
    marts.fctPaymentsUsd).filter fun row => (Sql.lt row.2.updatedAt row.1.updatedAt).holds

/-- The numbers of rows, where they differ. -/
def factReconcilesToPayments : List (Nat × Nat) :=
  [(payments.length, marts.fctPaymentsUsd.length)].filter fun counts => counts.1 ≠ counts.2

/-- The payments from more than a day ahead. -/
def noFutureTimestamps (now : Int) : List StgPayment :=
  payments.filter fun p => ((Sql.lt (some (dayAfter now)) p.updatedAt).or
    (Sql.lt (some (dayAfter now)) p.createdAt)).holds

/-- The rates that are NULL or not positive. -/
def noNullOrZeroFxRate : List FxRate :=
  marts.dimFxRates.filter fun d =>
    ((Sql.isNull d.rateToUsd).or (Sql.lt (some 0) d.rateToUsd).not).holds

/-- The payments in USD whose amount was changed. -/
def usdPaymentsUnchanged : List FctPayment :=
  marts.fctPaymentsUsd.filter fun f =>
    ((Sql.eq f.currency (some "USD")).and (Sql.eq f.usdAmount f.amount).not).holds

/-- `dbt test`: every test with the number of its failing rows. -/
def dbtTest (now : Int) : List (String × Nat) :=
  [("unique_stg_payments_payment_id",
      (Sql.duplicateValues StgPayment.paymentId payments).length),
    ("not_null_stg_payments_payment_id", (Sql.nulls StgPayment.paymentId payments).length),
    ("unique_dim_date_date_day", (Sql.duplicateValues some marts.dimDate).length),
    ("not_null_dim_date_date_day", (Sql.nulls some marts.dimDate).length),
    ("not_null_dim_fx_rates_rate_to_usd",
      (Sql.nulls FxRate.rateToUsd marts.dimFxRates).length),
    ("unique_fct_payments_usd_payment_id",
      (Sql.duplicateValues (fun f : FctPayment => f.paymentId) marts.fctPaymentsUsd).length),
    ("not_null_fct_payments_usd_payment_id",
      (Sql.nulls (fun f : FctPayment => f.paymentId) marts.fctPaymentsUsd).length),
    ("not_null_fct_payments_usd_usd_amount",
      (Sql.nulls FctPayment.usdAmount marts.fctPaymentsUsd).length),
    ("dim_fx_rates_grain_unique", (dimFxRatesGrainUnique marts).length),
    ("fact_is_not_stale", (factIsNotStale payments marts).length),
    ("fact_reconciles_to_payments", (factReconcilesToPayments payments marts).length),
    ("no_future_timestamps", (noFutureTimestamps payments now).length),
    ("no_null_or_zero_fx_rate", (noNullOrZeroFxRate marts).length),
    ("usd_payments_unchanged", (usdPaymentsUnchanged marts).length)]

end Tests

/-- No test has a failing row. -/
def Passes (results : List (String × Nat)) : Prop := ∀ test ∈ results, test.2 = 0

instance (results : List (String × Nat)) : Decidable (Passes results) :=
  inferInstanceAs (Decidable (∀ test ∈ results, test.2 = 0))

instance (payments : List StgPayment) (rates : List StgFxRate) (day : Int) :
    Decidable (Covered payments rates day) :=
  inferInstanceAs (Decidable (∀ e ∈ dates payments rates, day < e + 3660))

/-- The rates of the days that the calendar reaches. -/
def reached (payments : List StgPayment) (rates : List StgFxRate) : List StgFxRate :=
  rates.filter fun f => f.rateDate.any fun day => decide (Covered payments rates day)

/-- What the staging models have to be like for the marts to be served. -/
structure Servable (payments : List StgPayment) (rates : List StgFxRate) (now : Int) : Prop where
  identified : ∀ p ∈ payments, p.paymentId ≠ none
  valued : ∀ p ∈ payments, p.amount ≠ none
  dated : ∀ p ∈ payments, ∃ day, p.createdDate = some day ∧ Covered payments rates day
  rated : ∀ p ∈ payments, ∃ c, p.currency = some c ∧
    ∃ day rate, Published (reached payments rates) c day rate
  named : payments ≠ [] → ∀ f ∈ rates, ∃ c, f.currency = some c ∧
    ∃ day rate, Published (reached payments rates) c day rate
  positive : payments ≠ [] → ∀ c day rate, Published (reached payments rates) c day rate →
    0 < rate
  unchanged : ∀ p ∈ payments, p.currency = some "USD" → ∀ day amount rate,
    p.createdDate = some day → p.amount = some amount →
      Carried (reached payments rates) "USD" day rate →
        roundHalfAway (10 ^ 8) (amount * rate) = amount
  past : ∀ p ∈ payments, ∀ t, p.createdAt = some t ∨ p.updatedAt = some t → t ≤ dayAfter now

variable {payments : List StgPayment} {rates : List StgFxRate} {spine : List Int}
variable {p : StgPayment} {d : FxRate} {c : String} {day rate now : Int}

section Fill

/-- The rates of the days of a calendar. -/
def onCalendar (spine : List Int) (rates : List StgFxRate) : List StgFxRate :=
  rates.filter fun f => f.rateDate.any fun day => decide (day ∈ spine)

theorem published_filter {keeps : Int → Bool} :
    Published (rates.filter fun f => f.rateDate.any keeps) c day rate ↔
      Published rates c day rate ∧ keeps day = true := by
  constructor
  · rintro ⟨f, hf, currency, date, value⟩
    obtain ⟨hf, kept⟩ := List.mem_filter.mp hf
    rw [date] at kept
    exact ⟨⟨f, hf, currency, date, value⟩, kept⟩
  · rintro ⟨⟨f, hf, currency, date, value⟩, kept⟩
    exact ⟨f, List.mem_filter.mpr ⟨hf, by rw [date]; exact kept⟩, currency, date, value⟩

theorem published_onCalendar :
    Published (onCalendar spine rates) c day rate ↔ Published rates c day rate ∧ day ∈ spine := by
  rw [onCalendar, published_filter, decide_eq_true_eq]

theorem published_reached : Published (reached payments rates) c day rate ↔
    Published rates c day rate ∧ Covered payments rates day := by
  rw [reached, published_filter, decide_eq_true_eq]

variable (grain : (rates.map StgFxRate.key).Nodup) (distinct : spine.Nodup)
include grain

theorem published_unique {rate' : Int} (h : Published rates c day rate)
    (h' : Published rates c day rate') : rate = rate' := by
  obtain ⟨f, hf, currency, date, value⟩ := h
  obtain ⟨f', hf', currency', date', value'⟩ := h'
  have key : f.key = f'.key := by
    rw [StgFxRate.key, StgFxRate.key, currency, currency', date, date']
  have same : f = f' := List.inj_on_of_nodup_map grain hf hf' key
  rw [same, value'] at value
  exact (Option.some.inj value).symm

/-- At most one rate is carried to a day. -/
theorem carried_unique {rate' : Int} (h : Carried rates c day rate)
    (h' : Carried rates c day rate') : rate = rate' := by
  cases h with
  | forward published le rated latest =>
      cases h' with
      | forward published' le' rated' latest' =>
          have same : published = published' :=
            le_antisymm (latest' _ _ rated le) (latest _ _ rated' le')
          subst same
          exact published_unique grain rated rated'
      | backward published' lt' rated' earliest' =>
          exact absurd (earliest' _ _ rated) (by omega)
  | backward published lt rated earliest =>
      cases h' with
      | forward published' le' rated' latest' =>
          exact absurd (earliest _ _ rated') (by omega)
      | backward published' lt' rated' earliest' =>
          have same : published = published' :=
            le_antisymm (earliest _ _ rated') (earliest' _ _ rated)
          subst same
          exact published_unique grain rated rated'

theorem nodup_onCalendar : ((onCalendar spine rates).map StgFxRate.key).Nodup :=
  grain.sublist (List.filter_sublist.map StgFxRate.key)

theorem joined_onCalendar {x : GridRate} (hx : x ∈ joined spine rates)
    (hc : x.currency = some c) :
    x.rateToUsd = some rate ↔ Published (onCalendar spine rates) c x.rateDate rate := by
  rw [joined_rate_iff grain hx hc, published_onCalendar]
  exact (and_iff_left (mem_joined.mp hx).1.2).symm

omit grain in
theorem exists_joined_onCalendar (h : Published (onCalendar spine rates) c day rate) :
    ∃ x ∈ joined spine rates, x.currency = some c ∧ x.rateDate = day ∧
      x.rateToUsd = some rate := by
  obtain ⟨⟨f, hf, currency, date, value⟩, onSpine⟩ := published_onCalendar.mp h
  have holds : (publishedOn (some c, day) f).holds = true :=
    publishedOn_holds.mpr ⟨⟨c, currency, rfl⟩, date⟩
  exact ⟨⟨some c, day, some rate⟩, mem_joined.mpr ⟨⟨⟨f, hf, currency⟩, onSpine⟩,
    .inl ⟨f, hf, holds, value.symm⟩⟩, rfl, rfl, rfl⟩

include distinct

/-- What a row of the dimension has been filled with is the rate that is carried to its
day. -/
theorem carried_of_rateToUsd (hd : d ∈ dimFxRates spine rates) (hc : d.currency = some c)
    (hrate : d.rateToUsd = some rate) :
    Carried (onCalendar spine rates) c d.rateDate rate := by
  obtain ⟨w, hw, rfl⟩ := List.mem_map.mp hd
  have positions := nodup_joined grain distinct
  have cell {x : GridRate} (hx : x ∈ joined spine rates) (hpart : x.currency = w.row.currency) :
      x.rateToUsd = some rate ↔ Published (onCalendar spine rates) c x.rateDate rate :=
    joined_onCalendar grain hx (hpart.trans hc)
  rcases Option.or_eq_some_iff.mp hrate with hlast | ⟨hnone, hfirst⟩
  · obtain ⟨x, hx, hpart, hle, value, latest⟩ :=
      (Sql.lastValue_preceding positions hw).mp hlast
    refine .forward x.rateDate hle ((cell hx hpart).mp value) fun other r published hother => ?_
    obtain ⟨y, hy, hyc, rfl, hyr⟩ := exists_joined_onCalendar published
    exact latest y hy (hyc.trans hc.symm) hother (hyr ▸ Option.some_ne_none r)
  · have unrated : ∀ other r, Published (onCalendar spine rates) c other r →
        w.row.rateDate < other := by
      intro other r published
      obtain ⟨y, hy, hyc, rfl, hyr⟩ := exists_joined_onCalendar published
      by_contra hle
      have before : y ∈ w.preceding := (Sql.mem_frames positions hw).1.mpr
        ⟨hy, hyc.trans hc.symm, not_lt.mp hle⟩
      have found : (Sql.lastValue GridRate.rateToUsd w.preceding).isSome = true :=
        Sql.lastValue_isSome.mpr ⟨y, before, Option.isSome_of_mem hyr⟩
      rw [hnone] at found
      cases found
    obtain ⟨x, hx, hpart, _, value, earliest⟩ :=
      (Sql.firstValue_following positions hw).mp hfirst
    have published := (cell hx hpart).mp value
    refine .backward x.rateDate (unrated _ _ published) published fun other r hother => ?_
    have later := unrated other r hother
    obtain ⟨y, hy, hyc, rfl, hyr⟩ := exists_joined_onCalendar hother
    exact earliest y hy (hyc.trans hc.symm) later.le (hyr ▸ Option.some_ne_none r)

theorem rateToUsd_eq_iff (hd : d ∈ dimFxRates spine rates) (hc : d.currency = some c) :
    d.rateToUsd = some rate ↔ Carried (onCalendar spine rates) c d.rateDate rate := by
  constructor
  · exact carried_of_rateToUsd grain distinct hd hc
  · intro carried
    have published : ∃ e, Published (onCalendar spine rates) c e rate := by
      cases carried with
      | forward e _ rated _ => exact ⟨e, rated⟩
      | backward e _ rated _ => exact ⟨e, rated⟩
    obtain ⟨e, published⟩ := published
    obtain ⟨⟨f, hf, currency, date, value⟩, onSpine⟩ := published_onCalendar.mp published
    have filled : d.rateToUsd ≠ none := (rateToUsd_isSome hd).mpr
      ⟨f, hf, currency.trans hc.symm, by simp [currency], by simp [value], e, onSpine, date⟩
    obtain ⟨rate', hrate'⟩ := Option.ne_none_iff_exists'.mp filled
    have carried' := carried_of_rateToUsd grain distinct hd hc hrate'
    rw [hrate', carried_unique (nodup_onCalendar grain) carried' carried]

end Fill

/-- No payment is staged twice. -/
theorem nodup_stgPayments {Line : Type} (vf : VariantFunctions Line) (table : List SnapshotRun)
    (rawPayments : List (RawRow Line)) :
    ((stgPayments vf table rawPayments).map StgPayment.paymentId).Nodup := by
  unfold stgPayments
  cases latestSnapshot table with
  | none => exact List.nodup_nil
  | some run =>
      rw [List.map_map]
      exact Sql.nodup_latestBy (fun r : RawRow Line => vf.integer r.raw "payment_id")
        (versionKey vf) (rowsOfRun run.runId rawPayments)

/-- What the tests ask for that can fail. -/
structure Checks (payments : List StgPayment) (marts : Marts) (now : Int) : Prop where
  identified : ∀ p ∈ payments, p.paymentId ≠ none
  filled : ∀ d ∈ marts.dimFxRates, d.rateToUsd ≠ none
  converted : ∀ f ∈ marts.fctPaymentsUsd, f.usdAmount ≠ none
  past : ∀ p ∈ payments, ∀ t, p.createdAt = some t ∨ p.updatedAt = some t → t ≤ dayAfter now
  positive : ∀ d ∈ marts.dimFxRates, ∀ rate, d.rateToUsd = some rate → 0 < rate
  unchanged : ∀ f ∈ marts.fctPaymentsUsd, f.currency = some "USD" → ∀ amount usd,
    f.amount = some amount → f.usdAmount = some usd → usd = amount

section Guards

theorem noFutureTimestamps_eq_nil : noFutureTimestamps payments now = [] ↔
    ∀ p ∈ payments, ∀ t, p.createdAt = some t ∨ p.updatedAt = some t → t ≤ dayAfter now := by
  rw [noFutureTimestamps, List.filter_eq_nil_iff]
  refine forall₂_congr fun p _ => ?_
  rw [Sql.Truth.holds_or, Bool.or_eq_true, Sql.lt_holds, Sql.lt_holds]
  constructor
  · rintro past t (created | updated)
    · exact not_lt.mp fun future => past (.inr ⟨_, t, rfl, created, future⟩)
    · exact not_lt.mp fun future => past (.inl ⟨_, t, rfl, updated, future⟩)
  · rintro past (⟨_, t, ⟨⟩, updated, future⟩ | ⟨_, t, ⟨⟩, created, future⟩)
    · exact absurd (past t (.inr updated)) (not_le.mpr future)
    · exact absurd (past t (.inl created)) (not_le.mpr future)

theorem noNullOrZeroFxRate_eq_nil {marts : Marts} : noNullOrZeroFxRate marts = [] ↔
    ∀ d ∈ marts.dimFxRates, ∃ rate, d.rateToUsd = some rate ∧ 0 < rate := by
  rw [noNullOrZeroFxRate, List.filter_eq_nil_iff]
  refine forall₂_congr fun d _ => ?_
  cases d.rateToUsd with
  | none => simp
  | some rate => simp [Sql.lt, Sql.isNull, Sql.Truth.not]

theorem usdPaymentsUnchanged_eq_nil {marts : Marts} : usdPaymentsUnchanged marts = [] ↔
    ∀ f ∈ marts.fctPaymentsUsd, f.currency = some "USD" → ∀ amount usd,
      f.amount = some amount → f.usdAmount = some usd → usd = amount := by
  rw [usdPaymentsUnchanged, List.filter_eq_nil_iff]
  refine forall₂_congr fun f _ => ?_
  rw [Sql.Truth.holds_and, Bool.and_eq_true, Sql.eq_holds, Sql.Truth.holds_not]
  cases f.usdAmount with
  | none => simp [Sql.eq]
  | some usd =>
      cases f.amount with
      | none => simp [Sql.eq]
      | some amount => simp [Sql.eq]

variable (unique : (payments.map StgPayment.paymentId).Nodup)
variable (grain : (rates.map StgFxRate.key).Nodup)

include grain in
theorem map_payment_dbtRun :
    (dbtRun payments rates).fctPaymentsUsd.map FctPayment.toStgPayment = payments :=
  map_payment_fctPaymentsUsd (nodup_dimFxRates grain (nodup_dimDate _ _))

include unique grain in
/-- The fact has the version of a payment that is staged. -/
theorem factIsNotStale_dbtRun : factIsNotStale payments (dbtRun payments rates) = [] := by
  refine List.filter_eq_nil_iff.mpr fun row hrow older => ?_
  obtain ⟨staged, hfact, same⟩ := Sql.mem_innerJoin.mp hrow
  obtain ⟨id, hfactId, hstagedId⟩ := Sql.eq_holds.mp same
  obtain ⟨t, t', hfactTime, hstagedTime, before⟩ := Sql.lt_holds.mp older
  have built : row.2.toStgPayment ∈ payments := by
    have := List.mem_map_of_mem (f := FctPayment.toStgPayment) hfact
    rwa [map_payment_dbtRun grain] at this
  have payment : row.2.toStgPayment = row.1 :=
    List.inj_on_of_nodup_map unique built staged (hfactId.trans hstagedId.symm)
  rw [← payment, hfactTime] at hstagedTime
  exact absurd (Option.some.inj hstagedTime) before.ne

include unique grain in
/-- The tests that cannot fail on what `dbt run` builds, and those that can. -/
theorem passes_iff_checks : Passes (dbtTest payments (dbtRun payments rates) now) ↔
    Checks payments (dbtRun payments rates) now := by
  have facts : (dbtRun payments rates).fctPaymentsUsd.map FctPayment.toStgPayment = payments :=
    map_payment_dbtRun grain
  have factIds : (dbtRun payments rates).fctPaymentsUsd.map (fun f => f.paymentId) =
      payments.map StgPayment.paymentId := by
    rw [← facts, List.map_map, facts]
    rfl
  have paymentsUnique := Sql.duplicateValues_eq_nil unique
  have factsUnique := Sql.duplicateValues_eq_nil (factIds ▸ unique)
  have daysUnique : Sql.duplicateValues some (dbtRun payments rates).dimDate = [] :=
    Sql.duplicateValues_eq_nil ((nodup_dimDate payments rates).map (Option.some_injective _))
  have daysNotNull : Sql.nulls some (dbtRun payments rates).dimDate = [] :=
    Sql.nulls_eq_nil.mpr fun day _ => Option.some_ne_none day
  have grainUnique : dimFxRatesGrainUnique (dbtRun payments rates) = [] :=
    Sql.duplicates_eq_nil.mpr (nodup_dimFxRates grain (nodup_dimDate _ _))
  have notStale := factIsNotStale_dbtRun unique grain
  have reconciles : factReconcilesToPayments payments (dbtRun payments rates) = [] := by
    have length := congrArg List.length facts
    rw [List.length_map] at length
    simp [factReconcilesToPayments, length]
  simp only [Passes, dbtTest, List.forall_mem_cons, List.length_eq_zero_iff, paymentsUnique,
    factsUnique, daysUnique, daysNotNull, grainUnique, notStale, reconciles, true_and,
    Sql.nulls_eq_nil, noFutureTimestamps_eq_nil, noNullOrZeroFxRate_eq_nil,
    usdPaymentsUnchanged_eq_nil]
  constructor
  · rintro ⟨identified, filled, _, converted, past, positive, unchanged, _⟩
    refine ⟨identified, filled, converted, past, fun d hd rate hrate => ?_, unchanged⟩
    obtain ⟨_, hsome, hpositive⟩ := positive d hd
    rw [hrate] at hsome
    rwa [Option.some.inj hsome]
  · intro h
    refine ⟨h.identified, h.filled, fun f hf => ?_, h.converted, h.past, fun d hd => ?_,
      h.unchanged, by simp⟩
    · have staged := List.mem_map_of_mem (f := FctPayment.toStgPayment) hf
      rw [facts] at staged
      exact h.identified _ staged
    · obtain ⟨rate, hrate⟩ := Option.ne_none_iff_exists'.mp (h.filled d hd)
      exact ⟨rate, hrate, h.positive d hd rate hrate⟩

end Guards

section Calendar

theorem mem_dates_of_published {f : StgFxRate} (hf : f ∈ rates) (hday : f.rateDate = some day) :
    day ∈ dates payments rates :=
  List.mem_append_right _ (List.reduceOption_mem_iff.mpr (hday ▸ List.mem_map_of_mem hf))

theorem mem_dates_of_created (hp : p ∈ payments) (hday : p.createdDate = some day) :
    day ∈ dates payments rates :=
  List.mem_append_left _ (List.reduceOption_mem_iff.mpr (hday ▸ List.mem_map_of_mem hp))

/-- With a dated payment and a dated rate, the rates of the calendar are those it reaches. -/
theorem onCalendar_dimDate {f : StgFxRate} {created published : Int} (hp : p ∈ payments)
    (hcreated : p.createdDate = some created) (hf : f ∈ rates)
    (hpublished : f.rateDate = some published) :
    onCalendar (dimDate payments rates) rates = reached payments rates := by
  refine List.filter_congr fun g hg => ?_
  cases hdate : g.rateDate with
  | none => rfl
  | some day =>
      rw [Option.any_some, Option.any_some, decide_eq_decide]
      exact ⟨covered_of_mem_dimDate, mem_dimDate_of_covered hp hcreated hf hpublished
        (mem_dates_of_published hg hdate)⟩

/-- A day of the calendar comes with a dated payment. -/
theorem exists_payment_of_mem_dimDate (h : day ∈ dimDate payments rates) :
    ∃ q ∈ payments, ∃ created, q.createdDate = some created := by
  obtain ⟨start, _, hstart, _⟩ := mem_dimDate.mp h
  obtain ⟨created, _, hcreated, _, _⟩ := Option.map₂_eq_some_iff.mp hstart
  have hmem := List.reduceOption_mem_iff.mp (List.min?_eq_some_iff.mp hcreated).1
  obtain ⟨q, hq, hdate⟩ := List.mem_map.mp hmem
  exact ⟨q, hq, created, hdate⟩

end Calendar

section Servable

/-- A payment that is converted has an amount, a day and a rate that the calendar reaches. -/
theorem reached_of_converted (h : Checks payments (dbtRun payments rates) now)
    (hp : p ∈ payments) : p.amount ≠ none ∧
      (∃ day, p.createdDate = some day ∧ day ∈ dimDate payments rates) ∧
      onCalendar (dimDate payments rates) rates = reached payments rates ∧
      ∃ c, p.currency = some c ∧ ∃ day rate, Published (reached payments rates) c day rate := by
  have converted : ∀ fact ∈ fctPaymentsUsd payments (dimFxRates (dimDate payments rates) rates),
      fact.toStgPayment = p → fact.usdAmount ≠ none := fun fact hfact _ => h.converted fact hfact
  obtain ⟨amount, ⟨d, hd, holds⟩, rated⟩ := (converted_iff hp).mp converted
  obtain ⟨⟨c, hc, hpc⟩, hdate⟩ := rateOf_holds.mp holds
  obtain ⟨f, hf, hfc, _, hrate, published, hspine, hpublished⟩ :=
    (rateToUsd_isSome hd).mp (rated d hd holds)
  obtain ⟨rate, hrate⟩ := Option.ne_none_iff_exists'.mp hrate
  have same := onCalendar_dimDate hp hdate hf hpublished
  refine ⟨amount, ⟨d.rateDate, hdate, (exists_dimFxRates.mp ⟨d, hd, rfl, rfl⟩).2⟩, same,
    c, hpc, published, rate, ?_⟩
  rw [← same]
  exact published_onCalendar.mpr ⟨⟨f, hf, hfc.trans hc, hpublished, hrate⟩, hspine⟩

variable (grain : (rates.map StgFxRate.key).Nodup)
include grain

theorem Checks.servable (h : Checks payments (dbtRun payments rates) now) :
    Servable payments rates now where
  identified := h.identified
  valued p hp := (reached_of_converted h hp).1
  dated p hp := by
    obtain ⟨_, ⟨day, hday, onSpine⟩, _⟩ := reached_of_converted h hp
    exact ⟨day, hday, covered_of_mem_dimDate onSpine⟩
  rated p hp := (reached_of_converted h hp).2.2.2
  named some_payment f hf := by
    obtain ⟨p, hp⟩ := List.exists_mem_of_ne_nil payments some_payment
    obtain ⟨_, ⟨day, _, onSpine⟩, same, _⟩ := reached_of_converted h hp
    obtain ⟨d, hd, hdc, _⟩ := exists_dimFxRates.mpr ⟨⟨f, hf, rfl⟩, onSpine⟩
    obtain ⟨g, hg, hgc, hnamed, hrate, published, hspine, hpublished⟩ :=
      (rateToUsd_isSome hd).mp (h.filled d hd)
    obtain ⟨c, hc⟩ := Option.ne_none_iff_exists'.mp hnamed
    obtain ⟨rate, hrate⟩ := Option.ne_none_iff_exists'.mp hrate
    refine ⟨c, hdc.symm.trans (hgc.symm.trans hc), published, rate, ?_⟩
    rw [← same]
    exact published_onCalendar.mpr ⟨⟨g, hg, hc, hpublished, hrate⟩, hspine⟩
  positive some_payment c day rate published := by
    obtain ⟨p, hp⟩ := List.exists_mem_of_ne_nil payments some_payment
    obtain ⟨_, _, same, _⟩ := reached_of_converted h hp
    rw [← same] at published
    obtain ⟨⟨f, hf, hfc, _⟩, onSpine⟩ := published_onCalendar.mp published
    obtain ⟨d, hd, hdc, rfl⟩ := exists_dimFxRates.mpr ⟨⟨f, hf, hfc⟩, onSpine⟩
    -- On its own day a published rate is the last one.
    have carried : Carried (onCalendar (dimDate payments rates) rates) c d.rateDate rate :=
      .forward d.rateDate (le_refl _) published fun _ _ _ le => le
    exact h.positive d hd rate ((rateToUsd_eq_iff grain (nodup_dimDate _ _) hd hdc).mpr carried)
  unchanged p hp hcurrency day amount rate hday hamount carried := by
    obtain ⟨_, ⟨day', hday', onSpine⟩, same, c, hc, e, r, published⟩ :=
      reached_of_converted h hp
    obtain rfl : day' = day := Option.some.inj (hday'.symm.trans hday)
    obtain rfl : c = "USD" := Option.some.inj (hc.symm.trans hcurrency)
    obtain ⟨⟨f, hf, hfc, _⟩, _⟩ := published_reached.mp published
    obtain ⟨d, hd, hdc, rfl⟩ := exists_dimFxRates.mpr ⟨⟨f, hf, hfc⟩, onSpine⟩
    rw [← same] at carried
    have hrate := (rateToUsd_eq_iff grain (nodup_dimDate _ _) hd hdc).mpr carried
    have joins : (rateOf p d).holds = true :=
      rateOf_holds.mpr ⟨⟨"USD", hdc, hcurrency⟩, hday⟩
    have matched : (p, some d) ∈ Sql.leftJoin rateOf payments
        (dimFxRates (dimDate payments rates) rates) := Sql.mem_leftJoin.mpr ⟨hp, hd, joins⟩
    have fact : fctPayment p (some d) ∈ (dbtRun payments rates).fctPaymentsUsd :=
      List.mem_map_of_mem matched
    refine h.unchanged _ fact hcurrency amount _ hamount ?_
    change Option.map₂ _ p.amount d.rateToUsd = _
    rw [hamount, hrate]
    rfl
  past := h.past

theorem Servable.checks (h : Servable payments rates now) :
    Checks payments (dbtRun payments rates) now := by
  -- A row of the dimension is one of a day that a payment opens the calendar for.
  have dimension : ∀ d ∈ (dbtRun payments rates).dimFxRates, payments ≠ [] ∧
      onCalendar (dimDate payments rates) rates = reached payments rates ∧
      ∃ c, d.currency = some c ∧
        ∃ day rate, Published (reached payments rates) c day rate := by
    intro d hd
    obtain ⟨⟨f, hf, hfc⟩, onSpine⟩ := exists_dimFxRates.mp ⟨d, hd, rfl, rfl⟩
    obtain ⟨q, hq, created, hcreated⟩ := exists_payment_of_mem_dimDate onSpine
    have some_payment : payments ≠ [] := List.ne_nil_of_mem hq
    obtain ⟨c, hc, day, rate, published⟩ := h.named some_payment f hf
    obtain ⟨⟨g, hg, _, hdate, _⟩, _⟩ := published_reached.mp published
    exact ⟨some_payment, onCalendar_dimDate hq hcreated hg hdate, c, hfc.symm.trans hc, day, rate,
      published⟩
  have filled : ∀ d ∈ (dbtRun payments rates).dimFxRates, d.rateToUsd ≠ none := by
    intro d hd
    obtain ⟨_, same, c, hc, day, rate, published⟩ := dimension d hd
    rw [← same] at published
    obtain ⟨⟨f, hf, hfc, hdate, hrate⟩, onSpine⟩ := published_onCalendar.mp published
    exact (rateToUsd_isSome hd).mpr
      ⟨f, hf, hfc.trans hc.symm, by simp [hfc], by simp [hrate], day, onSpine, hdate⟩
  refine ⟨h.identified, filled, fun fact hfact => ?_, h.past, fun d hd rate hrate => ?_,
    fun fact hfact hcurrency amount usd hamount husd => ?_⟩
  · obtain ⟨o, ho, _⟩ := mem_fctPaymentsUsd.mp hfact
    have hp := (Sql.mem_leftJoin.mp ho).1
    refine (converted_iff hp).mpr ⟨h.valued _ hp, ?_, fun d hd _ => filled d hd⟩ fact hfact rfl
    obtain ⟨created, hcreated, covered⟩ := h.dated _ hp
    obtain ⟨c, hc, day, rate, published⟩ := h.rated _ hp
    obtain ⟨⟨f, hf, hfc, hdate, _⟩, _⟩ := published_reached.mp published
    have onSpine := mem_dimDate_of_covered hp hcreated hf hdate (mem_dates_of_created hp hcreated)
      covered
    obtain ⟨d, hd, hdc, hday⟩ := exists_dimFxRates.mpr ⟨⟨f, hf, hfc⟩, onSpine⟩
    exact ⟨d, hd, rateOf_holds.mpr
      ⟨⟨c, hdc, hc⟩, hcreated.trans (congrArg some hday.symm)⟩⟩
  · obtain ⟨some_payment, same, c, hc, _⟩ := dimension d hd
    have carried := (rateToUsd_eq_iff grain (nodup_dimDate _ _) hd hc).mp hrate
    rw [same] at carried
    cases carried with
    | forward day _ rated _ => exact h.positive some_payment c day rate rated
    | backward day _ rated _ => exact h.positive some_payment c day rate rated
  · obtain ⟨o, ho, built⟩ := mem_fctPaymentsUsd.mp hfact
    have hp := (Sql.mem_leftJoin.mp ho).1
    have value : (fctPayment fact.toStgPayment o).usdAmount = some usd := by rw [built, husd]
    cases o with
    | none =>
        change Option.map₂ _ fact.amount none = some usd at value
        rw [Option.map₂_none_right] at value
        cases value
    | some d =>
        obtain ⟨_, hd, holds⟩ := Sql.mem_leftJoin.mp ho
        obtain ⟨⟨c, hdc, hpc⟩, hdate⟩ := rateOf_holds.mp holds
        obtain rfl : c = "USD" := Option.some.inj (hpc.symm.trans hcurrency)
        obtain ⟨_, same, _⟩ := dimension d hd
        obtain ⟨rate, hrate⟩ := Option.ne_none_iff_exists'.mp (filled d hd)
        have carried := (rateToUsd_eq_iff grain (nodup_dimDate _ _) hd hdc).mp hrate
        rw [same] at carried
        change Option.map₂ _ fact.amount d.rateToUsd = some usd at value
        rw [hamount, hrate] at value
        rw [← h.unchanged _ hp hcurrency _ amount rate hdate hamount carried]
        exact (Option.some.inj value).symm

/-- The gate on staged payments and rates whose keys are distinct. -/
theorem passes_iff_servable (unique : (payments.map StgPayment.paymentId).Nodup) :
    Passes (dbtTest payments (dbtRun payments rates) now) ↔ Servable payments rates now := by
  rw [passes_iff_checks unique grain]
  exact ⟨fun h => h.servable grain, fun h => h.checks grain⟩

end Servable

/-- On the marts of any landed rows, `dbt test` passes exactly when every staged payment has
an id, an amount and a day that the calendar reaches, its currency and every other landed one
has a rate there, these rates are positive, those of the dollar leave the payments in dollars
as they are, and no payment is dated more than a day ahead; without payments there is no
calendar, and nothing is asked of the rates. -/
theorem dbtTest_passes_iff {Line Line' : Type} (vf : VariantFunctions Line)
    (rf : RateFunctions Line') (table : List SnapshotRun) (rawPayments : List (RawRow Line))
    (rawFxRates : List (RawRow Line')) (now : Int) :
    let payments := stgPayments vf table rawPayments
    let rates := stgFxRates rf rawFxRates
    Passes (dbtTest payments (dbtRun payments rates) now) ↔ Servable payments rates now := by
  intro payments rates
  have unique : (payments.map StgPayment.paymentId).Nodup := nodup_stgPayments vf table rawPayments
  have grain : (rates.map StgFxRate.key).Nodup := nodup_stgFxRates rf rawFxRates
  exact passes_iff_servable grain unique

/-- A payment on the second day with a rate of the first, and one without a rate. -/
example : Passes (dbtTest [StgPayment.sample 2]
      (dbtRun [StgPayment.sample 2] [StgFxRate.sample 0]) 86400000000) ∧
    ¬Passes (dbtTest [samplePayment] (dbtRun [samplePayment] [StgFxRate.sample 0])
      86400000000) := by
  decide +kernel

end PaymentsPlatform.Snowflake
