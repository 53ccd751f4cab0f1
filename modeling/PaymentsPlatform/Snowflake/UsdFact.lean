import PaymentsPlatform.Extract.FxRates
import PaymentsPlatform.Snowflake.ForwardFill
import PaymentsPlatform.Sql.Group
import PaymentsPlatform.Time.IsoFormat

/-!
# The payments in USD, from the landed rates to the monthly volumes

`snowflake_etl/dbt/models/`: `stg_fx_rates.sql` keeps the rate that was loaded last for
each date and currency, `fct_payments_usd.sql` joins the payments to the filled rates, and
`agg_payments_by_currency.sql` sums the fact by month, currency and country.

* `map_payment_fctPaymentsUsd`: the fact has every payment once, as it is staged.
* `sum_paymentCount`, `sum_volume`: the months add up to the fact.
* `usdAmount_of_base`: payments in the base currency keep their amount.
-/

namespace PaymentsPlatform.Snowflake

/-- The typed reads of a VARIANT with a rate; dates are days of the epoch, and the
numbers of `NUMBER(18, 8)` are in units of the last of eight digits. -/
structure RateFunctions (Line : Type) where
  date : Line → String → Option Int
  string : Line → String → Option String
  number : Line → String → Option Int

/-- The first day of the month of a day of the epoch: the calendar repeats every 400
years of 146097 days, counted from a first of March. -/
def monthStart (day : Int) : Int :=
  let dayOfEra := (day + 719468) % 146097
  let yearOfEra :=
    (dayOfEra - dayOfEra / 1460 + dayOfEra / 36524 - dayOfEra / 146096) / 365
  let dayOfYear := dayOfEra - (365 * yearOfEra + yearOfEra / 4 - yearOfEra / 100)
  let month := (5 * dayOfYear + 2) / 153
  day - (dayOfYear - (153 * month + 2) / 5)

example : [monthStart 0, monthStart 58, monthStart 59, monthStart 11016, monthStart 11017] =
    [0, 31, 59, 10988, 11017] := by decide

/-- A row of `agg_payments_by_currency`; the average is an exact number. -/
structure CurrencyMonth where
  month : Option Int
  currency : Option String
  countryCode : Option String
  paymentCount : Nat
  nativeVolume : Option Int
  usdVolume : Option Int
  authorizedUsdVolume : Option Int
  avgRateToUsd : Option ℚ
  deriving DecidableEq

section Models

variable {Line : Type} (rf : RateFunctions Line)

/-- The columns of a landed row. -/
def stgFxRate (line : Line) : StgFxRate where
  rateDate := rf.date line "rate_date"
  currency := rf.string line "currency"
  rateToUsd := rf.number line "rate_to_usd"

/-- `stg_fx_rates`: the rate that was loaded last. -/
def stgFxRates (rawFxRates : List (RawRow Line)) : List StgFxRate :=
  (Sql.latestBy (fun r : RawRow Line => (stgFxRate rf r.raw).key) RawRow.loadedAt
    rawFxRates).map fun r => stgFxRate rf r.raw

/-- The grouping columns. -/
def monthKey (fact : FctPayment) : Option Int × Option String × Option String :=
  (fact.createdAt.map fun t => monthStart (t / 86400000000), fact.currency, fact.countryCode)

/-- The amount in USD where the payment is authorized, and 0 where it is not. -/
def authorizedUsd (fact : FctPayment) : Option Int :=
  if (Sql.eq fact.paymentStatus (some "authorized")).holds then fact.usdAmount else some 0

/-- The columns of one group. -/
def currencyMonth (key : Option Int × Option String × Option String) (facts : List FctPayment) :
    CurrencyMonth where
  month := key.1
  currency := key.2.1
  countryCode := key.2.2
  paymentCount := facts.length
  nativeVolume := Sql.sum (fun fact : FctPayment => fact.amount) facts
  usdVolume := Sql.sum FctPayment.usdAmount facts
  authorizedUsdVolume := Sql.sum authorizedUsd facts
  avgRateToUsd := (Sql.sum FctPayment.rateToUsd facts).map fun total =>
    (total : ℚ) / ((facts.filterMap FctPayment.rateToUsd).length : ℚ)

/-- The volumes of every month and currency. -/
def aggPaymentsByCurrency (facts : List FctPayment) : List CurrencyMonth :=
  (Sql.groups monthKey facts).map fun g => currencyMonth g.1 g.2

/-- The fact that is built from staged payments and landed rates. -/
def usdFact (payments : List StgPayment) (rawFxRates : List (RawRow Line)) : List FctPayment :=
  let rates := stgFxRates rf rawFxRates
  fctPaymentsUsd payments (dimFxRates (dimDate payments rates) rates)

/-- The landed rates are records of requests for a base currency that the answers never
quote, any number of them and landed at any times. -/
def FetchedFor {F : Type} (floats : Extract.Floats F) (line : Extract.FxRate F → Line)
    (base : String) (rawFxRates : List (RawRow Line)) : Prop :=
  ∀ row ∈ rawFxRates, ∃ start end_ quotes getter,
    (∀ url params, (getter url params : Extract.Payload F).NeverQuotes base) ∧
      ∃ r ∈ Extract.fetchFxRates floats start end_ base quotes getter, row.raw = line r

/-- What the landing does to a record: the currency is read back, and `1.0` is cast to the
number one. -/
structure LandsRates {F : Type} (floats : Extract.Floats F) (line : Extract.FxRate F → Line) :
    Prop where
  currency : ∀ r, rf.string (line r) "currency" = some r.currency
  one : ∀ r, r.rateToUsd = floats.one → rf.number (line r) "rate_to_usd" = some (10 ^ 8)

variable {rf} {rawFxRates : List (RawRow Line)} {payments : List StgPayment}
variable {rates : List StgFxRate} {facts : List FctPayment}

/-- Loading rates again does not duplicate them. -/
theorem nodup_stgFxRates (rf : RateFunctions Line) (rawFxRates : List (RawRow Line)) :
    ((stgFxRates rf rawFxRates).map StgFxRate.key).Nodup := by
  rw [stgFxRates, List.map_map]
  refine Sql.nodup_map_iff.mpr fun k => ?_
  have winner := Sql.partition_latestBy (fun r : RawRow Line => (stgFxRate rf r.raw).key)
    RawRow.loadedAt rawFxRates k
  change (Sql.partition (fun r : RawRow Line => (stgFxRate rf r.raw).key) k _).length ≤ 1
  rw [winner]
  cases Sql.latestOf (fun r : RawRow Line => (stgFxRate rf r.raw).key) RawRow.loadedAt
    rawFxRates k with
  | none => exact Nat.zero_le 1
  | some _ => exact le_refl 1

/-- The calendar has no day twice. -/
theorem nodup_dimDate (payments : List StgPayment) (rates : List StgFxRate) :
    (dimDate payments rates).Nodup := by
  unfold dimDate
  split
  · refine List.Nodup.filter _ (List.nodup_range.map fun m n h => ?_)
    exact Int.ofNat_inj.mp (add_left_cancel h)
  · exact List.nodup_nil

/-- The dimension has at most one row for a payment, so the fact has every payment once. -/
theorem map_payment_fctPaymentsUsd {dim : List FxRate} (unique : (dim.map FxRate.key).Nodup) :
    (fctPaymentsUsd payments dim).map FctPayment.toStgPayment = payments := by
  have once : (Sql.leftJoin rateOf payments dim).map Prod.fst = payments :=
    Sql.map_fst_leftJoin fun p _ => Sql.length_matching_le_one unique fun d d' hd hd' => by
      obtain ⟨⟨c, hc, hp⟩, hdate⟩ := rateOf_holds.mp hd
      obtain ⟨⟨c', hc', hp'⟩, hdate'⟩ := rateOf_holds.mp hd'
      have currency : d.currency = d'.currency := by rw [hc, hc', ← hp, ← hp']
      exact Prod.ext currency (Option.some.inj (hdate.symm.trans hdate'))
  rw [fctPaymentsUsd, List.map_map]
  exact once

theorem sum_paymentCount (facts : List FctPayment) :
    ((aggPaymentsByCurrency facts).map CurrencyMonth.paymentCount).sum = facts.length := by
  have total := Sql.sum_groups (fun _ : FctPayment => 1) monthKey facts
  simp only [List.map_const', List.sum_replicate, smul_eq_mul, mul_one] at total
  rw [aggPaymentsByCurrency, List.map_map]
  exact total

/-- A volume of the months adds up to that of the fact. -/
theorem sum_volume {volume : CurrencyMonth → Option Int} {column : FctPayment → Option Int}
    (sums : ∀ key facts, volume (currencyMonth key facts) = Sql.sum column facts)
    (facts : List FctPayment) :
    Sql.sum volume (aggPaymentsByCurrency facts) = Sql.sum column facts := by
  rw [← Sql.sum_sum_groups column monthKey, aggPaymentsByCurrency, Sql.sum, Sql.sum,
    List.filterMap_map]
  simp only [Function.comp_def, sums]

/-- Converting at the rate one is no rounding. -/
theorem roundHalfAway_mul {scale : Nat} (positive : 0 < scale) (n : Int) :
    roundHalfAway scale (n * scale) = n := by
  have sign : (n * scale).sign = n.sign := by
    rw [Int.sign_mul, Int.sign_natCast_of_ne_zero positive.ne', mul_one]
  have whole : (n.natAbs * scale + scale / 2) / scale = n.natAbs := by
    rw [Nat.add_comm, Nat.add_mul_div_right _ _ positive,
      Nat.div_eq_of_lt (Nat.div_lt_self positive one_lt_two), Nat.zero_add]
  rw [roundHalfAway, sign, Int.natAbs_mul, Int.natAbs_natCast, whole, Int.sign_mul_natAbs]

/-- The rates of the base currency are one, wherever they are filled to. -/
theorem rate_of_base {spine : List Int} {currency : String} {rate : Int}
    (base : ∀ f ∈ rates, f.currency = some currency → f.rateToUsd = some rate) {d : FxRate}
    (hd : d ∈ dimFxRates spine rates) (hcurrency : d.currency = some currency)
    (hrate : d.rateToUsd ≠ none) : d.rateToUsd = some rate := by
  obtain ⟨w, hw, rfl⟩ := List.mem_map.mp hd
  obtain ⟨v, hv⟩ := Option.ne_none_iff_exists'.mp hrate
  obtain ⟨x, hx, hpart, hxv⟩ := Sql.fill_eq_some GridRate.rateToUsd hw hv
  obtain ⟨_, ⟨f, hf, holds, hvalue⟩ | ⟨_, hnone⟩⟩ := mem_joined.mp hx
  · have hfc : f.currency = some currency :=
      (congrArg Prod.snd (publishedOn_key holds)).trans (hpart.trans hcurrency)
    rw [hv, ← hxv, hvalue, base f hf hfc]
  · rw [hnone] at hxv
    cases hxv

section Base

variable {F : Type} {floats : Extract.Floats F} {line : Extract.FxRate F → Line} {base : String}

theorem stgFxRate_of_base (lands : LandsRates rf floats line)
    (fetched : FetchedFor floats line base rawFxRates) {f : StgFxRate}
    (hf : f ∈ stgFxRates rf rawFxRates) (hbase : f.currency = some base) :
    f.rateToUsd = some (10 ^ 8) := by
  obtain ⟨row, hrow, rfl⟩ := List.mem_map.mp hf
  obtain ⟨k, _, hwinner⟩ := List.mem_filterMap.mp hrow
  obtain ⟨start, end_, quotes, getter, unquoted, r, hr, hline⟩ :=
    fetched row (Sql.latestOf_mem hwinner).1
  have hcurrency : r.currency = base := by
    have := lands.currency r
    rw [← hline] at this
    exact Option.some.inj (this.symm.trans hbase)
  change rf.number row.raw "rate_to_usd" = _
  rw [hline]
  exact lands.one r (Extract.rateToUsd_of_base hr hcurrency unquoted)

/-- A payment in the base currency that has a rate keeps its amount. -/
theorem usdAmount_of_base (lands : LandsRates rf floats line)
    (fetched : FetchedFor floats line base rawFxRates) {fact : FctPayment}
    (hfact : fact ∈ usdFact rf payments rawFxRates) (hbase : fact.currency = some base)
    (hrate : fact.rateToUsd ≠ none) : fact.usdAmount = fact.amount := by
  obtain ⟨o, ho, heq⟩ := mem_fctPaymentsUsd.mp hfact
  generalize fact.toStgPayment = p at ho heq
  subst heq
  cases o with
  | none => exact absurd rfl hrate
  | some d =>
      obtain ⟨_, hd, holds⟩ := Sql.mem_leftJoin.mp ho
      obtain ⟨⟨c, hc, hpc⟩, _⟩ := rateOf_holds.mp holds
      have hcurrency : d.currency = some base := hc.trans (hpc.symm.trans hbase)
      have one : d.rateToUsd = some (10 ^ 8) := rate_of_base
        (fun f hf hfc => stgFxRate_of_base lands fetched hf hfc) hd hcurrency hrate
      change Option.map₂ _ p.amount d.rateToUsd = p.amount
      rw [one]
      cases p.amount with
      | none => rfl
      | some amount => exact congrArg some (roundHalfAway_mul (by decide : 0 < 10 ^ 8) amount)

end Base

end Models

/-- The fact has every payment once with its columns as staged, the months add up to it,
and a rate of the base currency leaves the amount as it is. -/
theorem usdFact_conserves {Line F : Type} (rf : RateFunctions Line) (floats : Extract.Floats F)
    (line : Extract.FxRate F → Line) (payments : List StgPayment)
    (rawFxRates : List (RawRow Line)) :
    let facts := usdFact rf payments rawFxRates
    let months := aggPaymentsByCurrency facts
    facts.map FctPayment.toStgPayment = payments ∧
      ((months.map CurrencyMonth.paymentCount).sum = facts.length ∧
        Sql.sum CurrencyMonth.nativeVolume months = Sql.sum (fun f => f.amount) facts ∧
        Sql.sum CurrencyMonth.usdVolume months = Sql.sum FctPayment.usdAmount facts) ∧
      (LandsRates rf floats line → FetchedFor floats line Extract.baseCurrency rawFxRates →
        ∀ fact ∈ facts, fact.currency = some Extract.baseCurrency → fact.rateToUsd ≠ none →
          fact.usdAmount = fact.amount) := by
  intro facts months
  refine ⟨?_, ⟨?_, ?_, ?_⟩, ?_⟩
  · exact map_payment_fctPaymentsUsd
      (nodup_dimFxRates (nodup_stgFxRates rf rawFxRates) (nodup_dimDate _ _))
  · exact sum_paymentCount facts
  · exact sum_volume (fun _ _ => rfl) facts
  · exact sum_volume (fun _ _ => rfl) facts
  · intro lands fetched fact hfact hbase hrate
    exact usdAmount_of_base lands fetched hfact hbase hrate

/-- Exact numbers in place of floats. -/
def sampleFloats : Extract.Floats ℚ where
  one := 1
  isZero x := x = 0
  inverse x := round (10 ^ 8 / x) / 10 ^ 8

/-- The reads of a record that is landed as it is. -/
def sampleReads : RateFunctions (Extract.FxRate ℚ) where
  date line _ := (Date.parse line.rateDate.toList).map fun d => d.toOrdinal - 719163
  string line _ := some line.currency
  number line _ := some (round (line.rateToUsd * 10 ^ 8))

theorem sampleReads_lands : LandsRates sampleReads sampleFloats id where
  currency _ := rfl
  one r h := by
    have one : (sampleFloats.one * 10 ^ 8 : ℚ) = ((10 ^ 8 : Int) : ℚ) := by norm_num [sampleFloats]
    change some (round (r.rateToUsd * 10 ^ 8)) = _
    rw [h, one, round_intCast]

/-- The answer of one day with a quote of the euro. -/
def samplePayload : Extract.Payload ℚ where
  rates := some ⟨[("1970-01-02", ⟨[("EUR", some (4 / 5))], by decide⟩)], by decide⟩

theorem samplePayload_neverQuotes : samplePayload.NeverQuotes Extract.baseCurrency := by
  unfold Extract.Payload.NeverQuotes
  decide

/-- The records of the answer, landed twice. -/
def sampleRates : List (RawRow (Extract.FxRate ℚ)) :=
  let records := Extract.fetchFxRates sampleFloats "1970-01-02" "1970-01-02"
    Extract.baseCurrency ["EUR"] fun _ _ => samplePayload
  (records.map fun r => ⟨r, "part-00001.jsonl", 1⟩) ++
    records.map fun r => ⟨r, "part-00001.jsonl", 2⟩

theorem sampleRates_fetched :
    FetchedFor sampleFloats id Extract.baseCurrency sampleRates := by
  intro row hrow
  refine ⟨"1970-01-02", "1970-01-02", ["EUR"], fun _ _ => samplePayload,
    fun _ _ => samplePayload_neverQuotes, row.raw, ?_, rfl⟩
  rcases List.mem_append.mp hrow with hrow | hrow
  · obtain ⟨r, hr, rfl⟩ := List.mem_map.mp hrow
    exact hr
  · obtain ⟨r, hr, rfl⟩ := List.mem_map.mp hrow
    exact hr

/-- A payment of 100.00 USD on the day after the published one. -/
def samplePayment : StgPayment := { StgPayment.sample 2 with currency := some "USD" }

theorem usdFact_conserves_sample :
    ((usdFact sampleReads [samplePayment] sampleRates).map FctPayment.rateToUsd =
      [some (10 ^ 8)]) ∧
    ∀ fact ∈ usdFact sampleReads [samplePayment] sampleRates,
      fact.currency = some Extract.baseCurrency → fact.rateToUsd ≠ none →
        fact.usdAmount = fact.amount :=
  ⟨by decide +kernel, (usdFact_conserves sampleReads sampleFloats id [samplePayment]
    sampleRates).2.2 sampleReads_lands sampleRates_fetched⟩

end PaymentsPlatform.Snowflake
