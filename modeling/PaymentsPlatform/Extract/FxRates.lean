import PaymentsPlatform.Collections.OrderedDict

/-!
# The daily rates of the reference API

`snowflake_etl/src/extract_fx_rates.py`: one request for a window of days, and one record
for every day and currency of the answer. Quotes are inverted, and the base currency gets
a rate of its own. Floats enter through the operations on them that the extractor uses.
-/

namespace PaymentsPlatform.Extract

/-- Python's floats: `1.0`, the test of a quote for zero, and `round(1.0 / x, 8)`. -/
structure Floats (F : Type) where
  one : F
  isZero : F → Bool
  inverse : F → F

/-- One USD rate of a day. -/
structure FxRate (F : Type) where
  rateDate : String
  currency : String
  rateToUsd : F
  deriving DecidableEq, Repr

/-- The answer of the API: the quotes of each day, a quote being a number or null. -/
structure Payload (F : Type) where
  rates : Option (OrderedDict String (OrderedDict String (Option F)))

def frankfurterBase : String := "https://api.frankfurter.app"

def baseCurrency : String := "USD"

/-- A getter of JSON: the URL and the parameters of the query. -/
abbrev JsonGetter (F : Type) := String → List (String × String) → Payload F

section Fetch

variable {F : Type} (floats : Floats F)

/-- The rates of the answer by day, none when it has no such field. -/
def Payload.ratesByDate (payload : Payload F) :
    OrderedDict String (OrderedDict String (Option F)) :=
  payload.rates.getD .empty

/-- The record of a quote; nulls and zeros are skipped. -/
def invert (rateDate currency : String) (quote : Option F) : Option (FxRate F) :=
  match quote with
  | none => none
  | some perBase =>
      if floats.isZero perBase then none
      else some ⟨rateDate, currency, floats.inverse perBase⟩

/-- The records of one day: the base currency first. -/
def ratesOfDay (base rateDate : String) (quotes : OrderedDict String (Option F)) :
    List (FxRate F) :=
  ⟨rateDate, base, floats.one⟩ ::
    quotes.entries.filterMap fun e => invert floats rateDate e.1 e.2

/-- One request for the whole window, turned into rates. -/
def fetchFxRates (start end_ base : String) (quotes : List String) (getter : JsonGetter F) :
    List (FxRate F) :=
  let url := frankfurterBase ++ "/" ++ start ++ ".." ++ end_
  let payload := getter url [("from", base), ("to", ",".intercalate quotes)]
  (payload.ratesByDate.entries.insertionSort fun d d' => d.1 ≤ d'.1).flatMap fun d =>
    ratesOfDay floats base d.1 d.2

/-- An answer that never quotes a currency against itself. -/
def Payload.NeverQuotes (payload : Payload F) (currency : String) : Prop :=
  ∀ d ∈ payload.ratesByDate.entries, currency ∉ d.2.entries.map Prod.fst

variable {floats} {base start end_ rateDate : String} {quotes : List String}
variable {getter : JsonGetter F} {r : FxRate F}

theorem invert_currency {currency : String} {quote : Option F}
    (h : invert floats rateDate currency quote = some r) : r.currency = currency := by
  cases quote with
  | none => cases h
  | some perBase =>
      rw [invert] at h
      split at h
      · cases h
      · rw [← Option.some.inj h]

/-- The base currency has the rate one, unless the answer quotes it. -/
theorem rateToUsd_of_base (hr : r ∈ fetchFxRates floats start end_ base quotes getter)
    (hbase : r.currency = base) (unquoted : ∀ url params, (getter url params).NeverQuotes base) :
    r.rateToUsd = floats.one := by
  obtain ⟨d, hd, hr⟩ := List.mem_flatMap.mp hr
  have hd := (List.mem_insertionSort _).mp hd
  rcases List.mem_cons.mp hr with rfl | hr
  · rfl
  · obtain ⟨e, he, hinvert⟩ := List.mem_filterMap.mp hr
    have hcurrency := (invert_currency hinvert).symm.trans hbase
    exact absurd (hcurrency ▸ List.mem_map_of_mem he) (unquoted _ _ d hd)

end Fetch

end PaymentsPlatform.Extract
