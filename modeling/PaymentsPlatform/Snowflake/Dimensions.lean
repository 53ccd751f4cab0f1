import PaymentsPlatform.Snowflake.StgPayments
import PaymentsPlatform.Sql.Frame
import PaymentsPlatform.Sql.Join

/-!
# The star schema of the payments in USD

`snowflake_etl/dbt/models/marts/`: the calendar (`dim_date.sql`), the rate of every
currency on every day of it (`dim_fx_rates.sql`), and the payments with their amounts in
USD (`fct_payments_usd.sql`). Dates are days of the epoch, rates are in units of the last
of eight digits.

The comments of the models promise that the calendar spans both sources and that every
payment date resolves to a rate. The calendar is generated from 3660 rows, so
`resolves_iff` finds a rate for a payment exactly when the payment is dated less than
3660 days after every other date and a rate of its currency is.
-/

namespace PaymentsPlatform.Snowflake

/-- A row of `stg_fx_rates`. -/
structure StgFxRate where
  rateDate : Option Int
  currency : Option String
  rateToUsd : Option Int
  deriving DecidableEq, Repr

/-- A row of `dim_fx_rates`. -/
structure FxRate where
  currency : Option String
  rateDate : Int
  rateToUsd : Option Int
  isFilled : Bool
  deriving DecidableEq, Repr

/-- A row of `fct_payments_usd`. -/
structure FctPayment extends StgPayment where
  rateToUsd : Option Int
  usdAmount : Option Int
  fxRateFilled : Option Bool
  createdDate : Option Int
  deriving DecidableEq, Repr

/-- The day a payment was created on. -/
def StgPayment.createdDate (p : StgPayment) : Option Int := p.createdAt.map (· / 86400000000)

/-- `LEAST` and `GREATEST` of two arguments: NULL when one of them is. -/
def least : Option Int → Option Int → Option Int := Option.map₂ min

def greatest : Option Int → Option Int → Option Int := Option.map₂ max

/-- `ROUND(n / scale)`, half away from zero. -/
def roundHalfAway (scale : Nat) (n : Int) : Int := n.sign * ((n.natAbs + scale / 2) / scale : Nat)

section Calendar

variable (payments : List StgPayment) (rates : List StgFxRate)

/-- `bounds`: `MIN` and `MAX` pass over NULLs. -/
def startDate : Option Int :=
  least (payments.map StgPayment.createdDate).reduceOption.min?
    (rates.map StgFxRate.rateDate).reduceOption.min?

def endDate : Option Int :=
  greatest (payments.map StgPayment.createdDate).reduceOption.max?
    (rates.map StgFxRate.rateDate).reduceOption.max?

/-- The rows that are generated for the calendar. -/
def rowCount : Nat := 3660

/-- `date_day` of `dim_date`. A NULL bound is UNKNOWN next to every day, and no day
passes the filter. -/
def dimDate : List Int :=
  match startDate payments rates, endDate payments rates with
  | some start, some last =>
      ((List.range rowCount).map fun n : Nat => start + n).filter fun d => d ≤ last
  | _, _ => []

end Calendar

section Rates

variable (spine : List Int) (rates : List StgFxRate)

/-- The currencies that have a rate on some day. -/
def currencies : List (Option String) := (rates.map StgFxRate.currency).dedup

/-- `grid`: every currency on every day. -/
def grid : List (Option String × Int) := (currencies rates).product spine

/-- A row of `joined`. -/
structure GridRate where
  currency : Option String
  rateDate : Int
  rateToUsd : Option Int
  deriving DecidableEq, Repr

/-- The rate published for a cell of the grid. -/
def publishedOn (g : Option String × Int) (f : StgFxRate) : Sql.Truth :=
  (Sql.eq f.currency g.1).and (Sql.eq f.rateDate (some g.2))

/-- `joined`: the published rate where there is one. -/
def joined : List GridRate :=
  (Sql.leftJoin publishedOn (grid spine rates) rates).map fun x =>
    ⟨x.1.1, x.1.2, x.2.bind StgFxRate.rateToUsd⟩

/-- The rates of every day of a calendar. -/
def dimFxRates : List FxRate :=
  (Sql.windowed GridRate.currency GridRate.rateDate (joined spine rates)).map fun w =>
    { currency := w.row.currency
      rateDate := w.row.rateDate
      rateToUsd := (Sql.lastValue GridRate.rateToUsd w.preceding).or
        (Sql.firstValue GridRate.rateToUsd w.following)
      isFilled := w.row.rateToUsd.isNone }

end Rates

/-- The rate of a payment: that of its currency on its day. -/
def rateOf (p : StgPayment) (d : FxRate) : Sql.Truth :=
  (Sql.eq d.currency p.currency).and (Sql.eq (some d.rateDate) p.createdDate)

/-- The columns of the fact: the payment, and what its rate makes of it. -/
def fctPayment (p : StgPayment) (d : Option FxRate) : FctPayment where
  toStgPayment := p
  rateToUsd := d.bind FxRate.rateToUsd
  usdAmount := Option.map₂ (fun amount rate => roundHalfAway (10 ^ 8) (amount * rate)) p.amount
    (d.bind FxRate.rateToUsd)
  fxRateFilled := d.map FxRate.isFilled
  createdDate := p.createdDate

/-- The payments, each with the rate that is joined to it. -/
def fctPaymentsUsd (payments : List StgPayment) (rates : List FxRate) : List FctPayment :=
  (Sql.leftJoin rateOf payments rates).map fun x => fctPayment x.1 x.2

/-- The dates of the two sources. -/
def dates (payments : List StgPayment) (rates : List StgFxRate) : List Int :=
  (payments.map StgPayment.createdDate).reduceOption ++
    (rates.map StgFxRate.rateDate).reduceOption

/-- A payment resolves to a rate: the rate of its day is in the dimension, and the fact
has the payment and its amount in USD. -/
def Resolves (payments : List StgPayment) (rates : List StgFxRate) (p : StgPayment) : Prop :=
  let dim := dimFxRates (dimDate payments rates) rates
  (∃ d ∈ dim, d.currency = p.currency ∧ p.createdDate = some d.rateDate) ∧
    (∃ fact ∈ fctPaymentsUsd payments dim, fact.toStgPayment = p) ∧
    ∀ fact ∈ fctPaymentsUsd payments dim, fact.toStgPayment = p → fact.usdAmount ≠ none

/-- A day that the generator reaches from every date of the two sources. -/
def Covered (payments : List StgPayment) (rates : List StgFxRate) (day : Int) : Prop :=
  ∀ e ∈ dates payments rates, day < e + 3660

variable {payments : List StgPayment} {rates : List StgFxRate} {spine : List Int}
variable {p : StgPayment} {day : Int}

private theorem mem_dates_of_payment (hp : p ∈ payments) (hday : p.createdDate = some day) :
    day ∈ dates payments rates :=
  List.mem_append_left _
    (List.reduceOption_mem_iff.mpr (hday ▸ List.mem_map_of_mem hp))

private theorem mem_dates_of_rate {f : StgFxRate} (hf : f ∈ rates) (hday : f.rateDate = some day) :
    day ∈ dates payments rates :=
  List.mem_append_right _ (List.reduceOption_mem_iff.mpr (hday ▸ List.mem_map_of_mem hf))

/-- The calendar starts with the first date of the two sources. -/
theorem startDate_eq_some {start : Int} (h : startDate payments rates = some start) :
    start ∈ dates payments rates ∧ ∀ e ∈ dates payments rates, start ≤ e := by
  obtain ⟨a, b, ha, hb, rfl⟩ := Option.map₂_eq_some_iff.mp h
  obtain ⟨hamem, hamin⟩ := List.min?_eq_some_iff.mp ha
  obtain ⟨hbmem, hbmin⟩ := List.min?_eq_some_iff.mp hb
  constructor
  · rcases min_choice a b with hmin | hmin <;> rw [hmin]
    · exact List.mem_append_left _ hamem
    · exact List.mem_append_right _ hbmem
  · intro e he
    rcases List.mem_append.mp he with he | he
    · exact (min_le_left a b).trans (hamin e he)
    · exact (min_le_right a b).trans (hbmin e he)

theorem le_endDate {last : Int} (h : endDate payments rates = some last) {e : Int}
    (he : e ∈ dates payments rates) : e ≤ last := by
  obtain ⟨a, b, ha, hb, rfl⟩ := Option.map₂_eq_some_iff.mp h
  rcases List.mem_append.mp he with he | he
  · exact ((List.max?_eq_some_iff.mp ha).2 e he).trans (le_max_left a b)
  · exact ((List.max?_eq_some_iff.mp hb).2 e he).trans (le_max_right a b)

theorem mem_dimDate : day ∈ dimDate payments rates ↔ ∃ start last,
    startDate payments rates = some start ∧ endDate payments rates = some last ∧
      start ≤ day ∧ day < start + 3660 ∧ day ≤ last := by
  unfold dimDate
  split
  · rename_i start last hstart hlast
    simp only [List.mem_filter, List.mem_map, List.mem_range, rowCount, decide_eq_true_eq, hstart,
      hlast, Option.some.injEq, exists_and_left, exists_eq_left']
    constructor
    · rintro ⟨⟨n, hn, rfl⟩, hle⟩
      omega
    · rintro ⟨hge, hlt, hle⟩
      exact ⟨⟨(day - start).toNat, by omega, by omega⟩, hle⟩
  · rename_i bounded
    refine iff_of_false (List.not_mem_nil) ?_
    rintro ⟨start, last, hstart, hlast, _⟩
    exact bounded start last hstart hlast

/-- Every day of the calendar is reached from every date. -/
theorem covered_of_mem_dimDate (h : day ∈ dimDate payments rates) :
    Covered payments rates day := by
  obtain ⟨start, last, hstart, _, _, hlt, _⟩ := mem_dimDate.mp h
  exact fun e he => hlt.trans_le (by linarith [(startDate_eq_some hstart).2 e he])

/-- With a dated payment and a dated rate, the calendar has the dates it reaches. -/
theorem mem_dimDate_of_covered {f : StgFxRate} {created published : Int}
    (hp : p ∈ payments) (hcreated : p.createdDate = some created)
    (hf : f ∈ rates) (hpublished : f.rateDate = some published)
    (hday : day ∈ dates payments rates) (covered : Covered payments rates day) :
    day ∈ dimDate payments rates := by
  have hcreated : created ∈ (payments.map StgPayment.createdDate).reduceOption :=
    List.reduceOption_mem_iff.mpr (hcreated ▸ List.mem_map_of_mem hp)
  have hpublished : published ∈ (rates.map StgFxRate.rateDate).reduceOption :=
    List.reduceOption_mem_iff.mpr (hpublished ▸ List.mem_map_of_mem hf)
  obtain ⟨a, ha⟩ := Option.isSome_iff_exists.mp (List.isSome_min?_of_mem hcreated)
  obtain ⟨b, hb⟩ := Option.isSome_iff_exists.mp (List.isSome_min?_of_mem hpublished)
  obtain ⟨a', ha'⟩ := Option.isSome_iff_exists.mp (List.isSome_max?_of_mem hcreated)
  obtain ⟨b', hb'⟩ := Option.isSome_iff_exists.mp (List.isSome_max?_of_mem hpublished)
  have hstart : startDate payments rates = some (min a b) :=
    Option.map₂_eq_some_iff.mpr ⟨a, b, ha, hb, rfl⟩
  have hlast : endDate payments rates = some (max a' b') :=
    Option.map₂_eq_some_iff.mpr ⟨a', b', ha', hb', rfl⟩
  obtain ⟨hmem, hmin⟩ := startDate_eq_some hstart
  exact mem_dimDate.mpr ⟨_, _, hstart, hlast, hmin day hday, covered _ hmem, le_endDate hlast hday⟩

theorem publishedOn_holds {g : Option String × Int} {f : StgFxRate} :
    (publishedOn g f).holds = true ↔
      (∃ c, f.currency = some c ∧ g.1 = some c) ∧ f.rateDate = some g.2 := by
  rw [publishedOn, Sql.Truth.holds_and, Bool.and_eq_true, Sql.eq_holds, Sql.eq_holds]
  simp

theorem rateOf_holds {d : FxRate} : (rateOf p d).holds = true ↔
    (∃ c, d.currency = some c ∧ p.currency = some c) ∧ p.createdDate = some d.rateDate := by
  rw [rateOf, Sql.Truth.holds_and, Bool.and_eq_true, Sql.eq_holds, Sql.eq_holds]
  simp

theorem mem_grid {g : Option String × Int} :
    g ∈ grid spine rates ↔ (∃ f ∈ rates, f.currency = g.1) ∧ g.2 ∈ spine := by
  obtain ⟨c, d⟩ := g
  rw [grid, List.pair_mem_product, currencies, List.mem_dedup, List.mem_map]

theorem mem_joined {x : GridRate} : x ∈ joined spine rates ↔
    ((∃ f ∈ rates, f.currency = x.currency) ∧ x.rateDate ∈ spine) ∧
      ((∃ f ∈ rates, (publishedOn (x.currency, x.rateDate) f).holds = true ∧
          x.rateToUsd = f.rateToUsd) ∨
        (∀ f ∈ rates, ¬(publishedOn (x.currency, x.rateDate) f).holds = true) ∧
          x.rateToUsd = none) := by
  rw [joined, List.mem_map]
  constructor
  · rintro ⟨⟨g, o⟩, hmem, rfl⟩
    obtain ⟨hgrid, ho⟩ := Sql.mem_leftJoin.mp hmem
    refine ⟨mem_grid.mp hgrid, ?_⟩
    cases o with
    | none => exact .inr ⟨ho, rfl⟩
    | some f => exact .inl ⟨f, ho.1, ho.2, rfl⟩
  · rintro ⟨hgrid, ⟨f, hf, holds, hrate⟩ | ⟨unmatched, hrate⟩⟩
    · refine ⟨((x.currency, x.rateDate), some f), ?_, ?_⟩
      · exact Sql.mem_leftJoin.mpr ⟨mem_grid.mpr hgrid, hf, holds⟩
      · exact congrArg (GridRate.mk x.currency x.rateDate) hrate.symm
    · refine ⟨((x.currency, x.rateDate), none), ?_, ?_⟩
      · exact Sql.mem_leftJoin.mpr ⟨mem_grid.mpr hgrid, unmatched⟩
      · exact congrArg (GridRate.mk x.currency x.rateDate) hrate.symm

/-- The dimension has a row for every currency on every day of the calendar. -/
theorem exists_dimFxRates {c : Option String} :
    (∃ d ∈ dimFxRates spine rates, d.currency = c ∧ d.rateDate = day) ↔
      (∃ f ∈ rates, f.currency = c) ∧ day ∈ spine := by
  constructor
  · rintro ⟨d, hd, rfl, rfl⟩
    obtain ⟨w, hw, rfl⟩ := List.mem_map.mp hd
    exact (mem_joined.mp ((Sql.exists_windowed _ _).mp ⟨w, hw, rfl⟩)).1
  · intro hgrid
    obtain ⟨o, ho⟩ := Sql.exists_mem_leftJoin publishedOn rates
      (mem_grid (g := (c, day)).mpr hgrid)
    have hjoined : (⟨c, day, o.bind StgFxRate.rateToUsd⟩ : GridRate) ∈ joined spine rates :=
      List.mem_map_of_mem ho
    obtain ⟨w, hw, hrow⟩ := (Sql.exists_windowed GridRate.currency GridRate.rateDate).mpr hjoined
    exact ⟨_, List.mem_map_of_mem hw, congrArg GridRate.currency hrow,
      congrArg GridRate.rateDate hrow⟩

/-- A row of the dimension has a rate exactly when its currency has one on some day of the
calendar. -/
theorem rateToUsd_isSome {d : FxRate} (hd : d ∈ dimFxRates spine rates) :
    d.rateToUsd ≠ none ↔ ∃ f ∈ rates, f.currency = d.currency ∧ f.currency ≠ none ∧
      f.rateToUsd ≠ none ∧ ∃ published ∈ spine, f.rateDate = some published := by
  obtain ⟨w, hw, rfl⟩ := List.mem_map.mp hd
  rw [← Option.isSome_iff_ne_none, Sql.fill_isSome GridRate.rateToUsd hw]
  constructor
  · rintro ⟨x, hx, hcurrency, hrate⟩
    obtain ⟨⟨_, hspine⟩, ⟨f, hf, holds, hvalue⟩ | ⟨_, hnone⟩⟩ := mem_joined.mp hx
    · obtain ⟨⟨c, hc, hxc⟩, hdate⟩ := publishedOn_holds.mp holds
      refine ⟨f, hf, ?_, by simp [hc], ?_, x.rateDate, hspine, hdate⟩
      · rw [hc, ← hcurrency]
        exact hxc.symm
      · rw [← hvalue]
        exact Option.isSome_iff_ne_none.mp hrate
    · rw [hnone] at hrate
      cases hrate
  · rintro ⟨f, hf, hcurrency, hnamed, hrate, published, hspine, hdate⟩
    obtain ⟨c, hc⟩ := Option.ne_none_iff_exists'.mp hnamed
    refine ⟨⟨f.currency, published, f.rateToUsd⟩, mem_joined.mpr ?_, hcurrency,
      Option.isSome_iff_ne_none.mpr hrate⟩
    exact ⟨⟨⟨f, hf, rfl⟩, hspine⟩, .inl ⟨f, hf, publishedOn_holds.mpr ⟨⟨c, hc, hc⟩, hdate⟩, rfl⟩⟩

theorem mem_fctPaymentsUsd {dim : List FxRate} {fact : FctPayment} :
    fact ∈ fctPaymentsUsd payments dim ↔
      ∃ o, (fact.toStgPayment, o) ∈ Sql.leftJoin rateOf payments dim ∧
        fctPayment fact.toStgPayment o = fact := by
  rw [fctPaymentsUsd, List.mem_map]
  constructor
  · rintro ⟨⟨p, o⟩, hmem, rfl⟩
    exact ⟨o, hmem, rfl⟩
  · rintro ⟨o, hmem, heq⟩
    exact ⟨(fact.toStgPayment, o), hmem, heq⟩

/-- The amount of a payment in USD, when the row of its day is in the dimension and when
it is not. -/
theorem usdAmount_ne_none {o : Option FxRate} : (fctPayment p o).usdAmount ≠ none ↔
    p.amount ≠ none ∧ ∃ d, o = some d ∧ d.rateToUsd ≠ none := by
  cases o with
  | none => simp [fctPayment]
  | some d => simp [fctPayment, Option.map₂_eq_none_iff]

theorem exists_fct (dim : List FxRate) (hp : p ∈ payments) :
    ∃ fact ∈ fctPaymentsUsd payments dim, fact.toStgPayment = p := by
  obtain ⟨o, ho⟩ := Sql.exists_mem_leftJoin rateOf dim hp
  exact ⟨fctPayment p o, List.mem_map_of_mem ho, rfl⟩

/-- The fact has an amount in USD for a payment exactly when the dimension has rows for
its day, and a rate in each of them. -/
theorem converted_iff {dim : List FxRate} (hp : p ∈ payments) :
    (∀ fact ∈ fctPaymentsUsd payments dim, fact.toStgPayment = p → fact.usdAmount ≠ none) ↔
      p.amount ≠ none ∧ (∃ d ∈ dim, (rateOf p d).holds = true) ∧
        ∀ d ∈ dim, (rateOf p d).holds = true → d.rateToUsd ≠ none := by
  constructor
  · intro converted
    have rated : ∀ o, (p, o) ∈ Sql.leftJoin rateOf payments dim →
        p.amount ≠ none ∧ ∃ d, o = some d ∧ d.rateToUsd ≠ none :=
      fun o ho => usdAmount_ne_none.mp (converted _ (List.mem_map_of_mem ho) rfl)
    obtain ⟨o, ho⟩ := Sql.exists_mem_leftJoin rateOf dim hp
    obtain ⟨amount, d, rfl, _⟩ := rated o ho
    refine ⟨amount, ⟨d, (Sql.mem_leftJoin.mp ho).2⟩, fun d' hd' holds => ?_⟩
    obtain ⟨_, _, heq, hrate⟩ := rated (some d') (Sql.mem_leftJoin.mpr ⟨hp, hd', holds⟩)
    cases heq
    exact hrate
  · rintro ⟨amount, ⟨d, hd, holds⟩, rated⟩ fact hfact hown
    obtain ⟨o, hmem, heq⟩ := mem_fctPaymentsUsd.mp hfact
    rw [hown] at hmem heq
    rw [← heq, usdAmount_ne_none]
    refine ⟨amount, ?_⟩
    cases o with
    | none => exact absurd holds ((Sql.mem_leftJoin.mp hmem).2 d hd)
    | some d' =>
        obtain ⟨_, hd', holds'⟩ := Sql.mem_leftJoin.mp hmem
        exact ⟨d', rfl, rated d' hd' holds'⟩

/-- A staged payment resolves to a rate exactly when it has an amount, its day is reached
from every date of the two sources, and so is the day of a rate of its currency. -/
theorem resolves_iff (payments : List StgPayment) (rates : List StgFxRate) (p : StgPayment)
    (hp : p ∈ payments) :
    Resolves payments rates p ↔ p.amount ≠ none ∧
      (∃ day, p.createdDate = some day ∧ Covered payments rates day) ∧
      ∃ f ∈ rates, f.currency = p.currency ∧ f.currency ≠ none ∧ f.rateToUsd ≠ none ∧
        ∃ published, f.rateDate = some published ∧ Covered payments rates published := by
  constructor
  · rintro ⟨_, _, converted⟩
    obtain ⟨amount, ⟨d, hd, holds⟩, rated⟩ := (converted_iff hp).mp converted
    obtain ⟨⟨c, hc, hpc⟩, hdate⟩ := rateOf_holds.mp holds
    obtain ⟨f, hf, hfc, hnamed, hrate, published, hspine, hpublished⟩ :=
      (rateToUsd_isSome hd).mp (rated d hd holds)
    have hday := (exists_dimFxRates.mp ⟨d, hd, rfl, rfl⟩).2
    refine ⟨amount, ⟨d.rateDate, hdate, covered_of_mem_dimDate hday⟩, f, hf, ?_, hnamed, hrate,
      published, hpublished, covered_of_mem_dimDate hspine⟩
    rw [hfc, hc, hpc]
  · rintro ⟨amount, ⟨day, hday, covered⟩, f, hf, hcurrency, hnamed, hrate, published, hpublished,
      reached⟩
    have inSpine : ∀ e ∈ dates payments rates, Covered payments rates e →
        e ∈ dimDate payments rates :=
      fun e he => mem_dimDate_of_covered hp hday hf hpublished he
    have hspine := inSpine day (mem_dates_of_payment hp hday) covered
    have hreached := inSpine published (mem_dates_of_rate hf hpublished) reached
    obtain ⟨c, hc⟩ := Option.ne_none_iff_exists'.mp hnamed
    obtain ⟨d, hd, hdc, hdd⟩ := exists_dimFxRates.mpr ⟨⟨f, hf, hcurrency⟩, hspine⟩
    have hdate : p.createdDate = some d.rateDate := hday.trans (congrArg some hdd.symm)
    refine ⟨⟨d, hd, hdc, hdate⟩, exists_fct _ hp, (converted_iff hp).mpr ⟨amount, ⟨d, hd, ?_⟩, ?_⟩⟩
    · have hpc := hcurrency.symm.trans hc
      exact rateOf_holds.mpr ⟨⟨c, hdc.trans hpc, hpc⟩, hdate⟩
    · intro d' hd' holds
      obtain ⟨⟨c', hc', hpc'⟩, _⟩ := rateOf_holds.mp holds
      refine (rateToUsd_isSome hd').mpr ⟨f, hf, ?_, hnamed, hrate, published, hreached, hpublished⟩
      rw [hcurrency, hpc', hc']

/-- A payment of 100.00 in euros, `days` days after the epoch. -/
def StgPayment.sample (days : Int) : StgPayment where
  paymentId := some 1
  merchantId := some 1
  shopperId := none
  amount := some 10000
  currency := some "EUR"
  paymentMethod := some "card"
  paymentStatus := some "authorized"
  countryCode := some "NL"
  createdAt := some (days * 86400000000)
  updatedAt := some (days * 86400000000)

/-- A rate of 1.1 USD for the euro on a day. -/
def StgFxRate.sample (days : Int) : StgFxRate := ⟨some days, some "EUR", some 110000000⟩

theorem resolves_iff_sample :
    Resolves [StgPayment.sample 2] [StgFxRate.sample 0] (StgPayment.sample 2) :=
  (resolves_iff [StgPayment.sample 2] [StgFxRate.sample 0] (StgPayment.sample 2)
    (List.mem_singleton_self _)).mpr
      ⟨by decide, ⟨2, by decide, by unfold Covered; decide⟩, StgFxRate.sample 0, by decide,
        by decide, by decide, by decide, 0, by decide, by unfold Covered; decide⟩

/-- The calendar of a rate at the epoch and a payment ten years later ends before the
payment, although its currency has a rate on the day of the payment. -/
theorem latePayment_unresolved :
    let rates := [StgFxRate.sample 0, StgFxRate.sample 3660]
    (∃ f ∈ rates, f.currency = (StgPayment.sample 3660).currency) ∧
      (∀ f ∈ rates, ∃ rate, f.rateToUsd = some rate ∧ 0 < rate) ∧
        ¬Resolves [StgPayment.sample 3660] rates (StgPayment.sample 3660) := by
  refine ⟨by decide, by simp [StgFxRate.sample], ?_⟩
  rintro ⟨⟨d, hd, _, hdate⟩, _⟩
  have covered := covered_of_mem_dimDate (exists_dimFxRates.mp ⟨d, hd, rfl, rfl⟩).2
  have created : (StgPayment.sample 3660).createdDate = some 3660 := by decide
  have hday : 3660 = d.rateDate := Option.some.inj (created.symm.trans hdate)
  have := covered 0 (by decide)
  omega

end PaymentsPlatform.Snowflake
