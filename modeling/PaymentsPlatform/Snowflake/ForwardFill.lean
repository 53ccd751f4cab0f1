import PaymentsPlatform.Snowflake.Dimensions

/-!
# The rates between the publication days

`dim_fx_rates.sql` fills the days without a published rate from two window scans.
`dimFxRates_fills` says what the fill comes to, on every calendar that has the days of the
rates: the rate of the last published day up to a day, or of the first one after it when
there is none. `stg_fx_rates.sql` has one row for each date and currency, so the dimension
has one for each currency and day.
-/

namespace PaymentsPlatform.Snowflake

/-- A rate is published for a currency on a day. -/
def Published (rates : List StgFxRate) (currency : String) (day rate : Int) : Prop :=
  ∃ f ∈ rates, f.currency = some currency ∧ f.rateDate = some day ∧ f.rateToUsd = some rate

/-- The rate of the greatest published day not after a day, or, when there is none, of the
smallest one after it. -/
inductive Carried (rates : List StgFxRate) (currency : String) (day rate : Int) : Prop
  | forward (published : Int) (le : published ≤ day)
      (rated : Published rates currency published rate)
      (latest : ∀ other r, Published rates currency other r → other ≤ day → other ≤ published)
  | backward (published : Int) (lt : day < published)
      (rated : Published rates currency published rate)
      (earliest : ∀ other r, Published rates currency other r → published ≤ other)

/-- The identity of a row of `dim_fx_rates`. -/
def FxRate.key (d : FxRate) : Option String × Int := (d.currency, d.rateDate)

/-- The identity of a row of `stg_fx_rates`. -/
def StgFxRate.key (f : StgFxRate) : Option Int × Option String := (f.rateDate, f.currency)

/-- A dimension without gaps: one row for each currency of the rates and each day of the
calendar, with the rate that is carried to the day, marked unless it was published then. -/
structure Filled (spine : List Int) (rates : List StgFxRate) (dim : List FxRate) : Prop where
  unique : (dim.map FxRate.key).Nodup
  complete : ∀ currency day, (currency, day) ∈ dim.map FxRate.key ↔
    (∃ f ∈ rates, f.currency = currency) ∧ day ∈ spine
  carried : ∀ d ∈ dim, ∀ c, d.currency = some c →
    ∃ rate, d.rateToUsd = some rate ∧ Carried rates c d.rateDate rate
  marked : ∀ d ∈ dim, ∀ c, d.currency = some c →
    (d.isFilled = true ↔ ∀ rate, ¬Published rates c d.rateDate rate)

variable {spine : List Int} {rates : List StgFxRate} {c : String} {rate : Int}

/-- The key of a joined row. -/
def GridRate.key (x : GridRate) : Option String × Int := (x.currency, x.rateDate)

/-- The publication that a cell of the grid matches has its key. -/
theorem publishedOn_key {g : Option String × Int} {f : StgFxRate}
    (holds : (publishedOn g f).holds = true) : f.key = (some g.2, g.1) := by
  obtain ⟨⟨c, hf, hg⟩, hdate⟩ := publishedOn_holds.mp holds
  rw [StgFxRate.key, hf, hdate, hg]

section Grain

variable (grain : (rates.map StgFxRate.key).Nodup)
include grain

theorem map_key_joined : (joined spine rates).map GridRate.key = grid spine rates := by
  have once : (Sql.leftJoin publishedOn (grid spine rates) rates).map Prod.fst =
      grid spine rates :=
    Sql.map_fst_leftJoin fun g _ => Sql.length_matching_le_one grain fun f f' hf hf' =>
      (publishedOn_key hf).trans (publishedOn_key hf').symm
  rw [joined, List.map_map]
  exact once

theorem nodup_joined (distinct : spine.Nodup) :
    ((joined spine rates).map GridRate.key).Nodup := by
  rw [map_key_joined grain]
  exact (List.nodup_dedup _).product distinct

/-- The dimension has at most one row for a currency and a day. -/
theorem nodup_dimFxRates (distinct : spine.Nodup) :
    ((dimFxRates spine rates).map FxRate.key).Nodup := by
  have keys : (dimFxRates spine rates).map FxRate.key =
      ((Sql.windowed GridRate.currency GridRate.rateDate (joined spine rates)).map
        Sql.Frame.row).map GridRate.key := by
    rw [dimFxRates, List.map_map, List.map_map]
    rfl
  rw [keys, ((Sql.windowed_perm _ _ _).map GridRate.key).nodup_iff]
  exact nodup_joined grain distinct

theorem joined_rate_iff {x : GridRate} (hx : x ∈ joined spine rates)
    (hc : x.currency = some c) :
    x.rateToUsd = some rate ↔ Published rates c x.rateDate rate := by
  obtain ⟨_, cell⟩ := mem_joined.mp hx
  constructor
  · intro hrate
    rcases cell with ⟨f, hf, holds, hvalue⟩ | ⟨_, hnone⟩
    · have hkey := publishedOn_key holds
      exact ⟨f, hf, (congrArg Prod.snd hkey).trans hc, congrArg Prod.fst hkey,
        hvalue.symm.trans hrate⟩
    · rw [hnone] at hrate
      cases hrate
  · rintro ⟨f, hf, hfc, hfd, hfr⟩
    have holds : (publishedOn (x.currency, x.rateDate) f).holds = true :=
      publishedOn_holds.mpr ⟨⟨c, hfc, hc⟩, hfd⟩
    rcases cell with ⟨f', hf', holds', hvalue⟩ | ⟨unmatched, _⟩
    · have same : f' = f := List.inj_on_of_nodup_map grain hf' hf
        ((publishedOn_key holds').trans (publishedOn_key holds).symm)
      rw [hvalue, same, hfr]
    · exact absurd holds (unmatched f hf)

end Grain

/-- A rate that is published on a day of the calendar is in the grid. -/
theorem exists_joined_of_published {day : Int}
    (dated : ∀ f ∈ rates, ∃ day ∈ spine, f.rateDate = some day) (h : Published rates c day rate) :
    ∃ x ∈ joined spine rates, x.currency = some c ∧ x.rateDate = day ∧
      x.rateToUsd = some rate := by
  obtain ⟨f, hf, hfc, hfd, hfr⟩ := h
  obtain ⟨day', hspine, hfd'⟩ := dated f hf
  obtain rfl : day' = day := Option.some.inj (hfd'.symm.trans hfd)
  refine ⟨⟨some c, day', some rate⟩, mem_joined.mpr ⟨⟨⟨f, hf, hfc⟩, hspine⟩, .inl ⟨f, hf, ?_, ?_⟩⟩,
    rfl, rfl, rfl⟩
  · exact publishedOn_holds.mpr ⟨⟨c, hfc, rfl⟩, hfd⟩
  · exact hfr.symm

section Fill

variable (grain : (rates.map StgFxRate.key).Nodup) (distinct : spine.Nodup)
variable (dated : ∀ f ∈ rates, ∃ day ∈ spine, f.rateDate = some day)
variable {w : Sql.Frame GridRate}
variable (hw : w ∈ Sql.windowed GridRate.currency GridRate.rateDate (joined spine rates))
variable (hc : w.row.currency = some c)
include grain distinct dated hw hc

/-- The scan backwards finds the rate of the last published day. -/
theorem carried_of_lastValue (h : Sql.lastValue GridRate.rateToUsd w.preceding = some rate) :
    Carried rates c w.row.rateDate rate := by
  obtain ⟨x, hx, hpart, hle, hrate, latest⟩ :=
    (Sql.lastValue_preceding (nodup_joined grain distinct) hw).mp h
  refine .forward x.rateDate hle ((joined_rate_iff grain hx (hpart.trans hc)).mp hrate) ?_
  intro other r published hother
  obtain ⟨y, hy, hyc, rfl, hyr⟩ := exists_joined_of_published dated published
  exact latest y hy (hyc.trans hc.symm) hother (hyr ▸ Option.some_ne_none r)

/-- When it finds none, the scan forwards finds the rate of the first published day. -/
theorem carried_of_firstValue (hnone : Sql.lastValue GridRate.rateToUsd w.preceding = none)
    (h : Sql.firstValue GridRate.rateToUsd w.following = some rate) :
    Carried rates c w.row.rateDate rate := by
  have unrated : ∀ other r, Published rates c other r → w.row.rateDate < other := by
    intro other r published
    obtain ⟨y, hy, hyc, rfl, hyr⟩ := exists_joined_of_published dated published
    by_contra hle
    have before : y ∈ w.preceding := (Sql.mem_frames (nodup_joined grain distinct) hw).1.mpr
      ⟨hy, hyc.trans hc.symm, not_lt.mp hle⟩
    have found : (Sql.lastValue GridRate.rateToUsd w.preceding).isSome = true :=
      Sql.lastValue_isSome.mpr ⟨y, before, Option.isSome_of_mem hyr⟩
    rw [hnone] at found
    cases found
  obtain ⟨x, hx, hpart, _, hrate, earliest⟩ :=
    (Sql.firstValue_following (nodup_joined grain distinct) hw).mp h
  have published := (joined_rate_iff grain hx (hpart.trans hc)).mp hrate
  refine .backward x.rateDate (unrated _ _ published) published fun other r hother => ?_
  have later := unrated other r hother
  obtain ⟨y, hy, hyc, rfl, hyr⟩ := exists_joined_of_published dated hother
  exact earliest y hy (hyc.trans hc.symm) later.le (hyr ▸ Option.some_ne_none r)

end Fill

/-- On every calendar of distinct days that has the days of the rates, `dim_fx_rates` has
one row for each currency and day, with the rate of the last published day up to it, or
else of the first one after it. -/
theorem dimFxRates_fills (spine : List Int) (rates : List StgFxRate)
    (distinct : spine.Nodup) (grain : (rates.map StgFxRate.key).Nodup)
    (rated : ∀ f ∈ rates, f.rateToUsd ≠ none)
    (dated : ∀ f ∈ rates, ∃ day ∈ spine, f.rateDate = some day) :
    Filled spine rates (dimFxRates spine rates) where
  unique := nodup_dimFxRates grain distinct
  complete currency day := by
    rw [← exists_dimFxRates, List.mem_map]
    exact exists_congr fun d => and_congr_right fun _ => Prod.ext_iff
  carried d hd c hdc := by
    have found : d.rateToUsd ≠ none := by
      obtain ⟨f, hf, hfc⟩ := (exists_dimFxRates.mp ⟨d, hd, rfl, rfl⟩).1
      obtain ⟨day, hday, hdate⟩ := dated f hf
      exact (rateToUsd_isSome hd).mpr
        ⟨f, hf, hfc, by simp [hfc, hdc], rated f hf, day, hday, hdate⟩
    obtain ⟨rate, hrate⟩ := Option.ne_none_iff_exists'.mp found
    refine ⟨rate, hrate, ?_⟩
    obtain ⟨w, hw, rfl⟩ := List.mem_map.mp hd
    rcases Option.or_eq_some_iff.mp hrate with hlast | ⟨hnone, hfirst⟩
    · exact carried_of_lastValue grain distinct dated hw hdc hlast
    · exact carried_of_firstValue grain distinct dated hw hdc hnone hfirst
  marked d hd c hdc := by
    obtain ⟨w, hw, rfl⟩ := List.mem_map.mp hd
    have hjoined : w.row ∈ joined spine rates := (Sql.exists_windowed _ _).mp ⟨w, hw, rfl⟩
    change w.row.rateToUsd.isNone = true ↔ ∀ rate, ¬Published rates c w.row.rateDate rate
    rw [Option.isNone_iff_eq_none, Option.eq_none_iff_forall_ne_some]
    exact forall_congr' fun rate => not_congr (joined_rate_iff grain hjoined hdc)

/-- A calendar of five days with rates on the second and the fourth. -/
theorem dimFxRates_fills_sample :
    Filled [0, 1, 2, 3, 4] [StgFxRate.sample 1, StgFxRate.sample 3]
      (dimFxRates [0, 1, 2, 3, 4] [StgFxRate.sample 1, StgFxRate.sample 3]) :=
  dimFxRates_fills [0, 1, 2, 3, 4] [StgFxRate.sample 1, StgFxRate.sample 3] (by decide)
    (by decide) (by decide) (by simp [StgFxRate.sample])

end PaymentsPlatform.Snowflake
