import PaymentsPlatform.Api.Cache
import PaymentsPlatform.Api.Queries

/-!
# The endpoints

`api/src/app.py`: `hourly_metrics` and `metrics_summary`, which differ in whether there is
a page. A request is checked, the snapshot is looked up, the answer is taken from the
cache or computed and put there, and the response is made of it. The codec of the cursor
tokens is a parameter.
-/

namespace PaymentsPlatform.Api

/-- `encode_cursor` and `decode_cursor`, with the text of a `CursorError`. -/
structure CursorCodec where
  encode : Cursor → String
  decode : String → Except String Cursor

/-- An `HTTPException` with status 400, or a `TypeError`. -/
inductive ApiError where
  | badRequest (detail : String)
  | typeError
  deriving DecidableEq, Repr

/-- The parameters of `hourly_metrics` beyond the filters. -/
structure PageRequest where
  limit : Nat
  cursor : Option String
  deriving DecidableEq

/-- The parameters of a request; there is no page in `metrics_summary`. -/
structure Request where
  filters : MetricsFilter
  page : Option PageRequest
  deriving DecidableEq

/-- A page request with its decoded cursor. -/
structure Page extends PageRequest where
  after : Option Cursor
  deriving DecidableEq

/-- A request that is answered from gold. -/
structure Checked where
  filters : MetricsFilter
  page : Option Page
  deriving DecidableEq

/-- What the cache holds: the rows of a page, or the totals. -/
inductive Value where
  | rows (rows : List GoldRow)
  | totals (row : SummaryRow)
  deriving DecidableEq

/-- A page of hourly metrics, each with the columns of its row. -/
structure HourlyMetricsPage where
  data : List GoldRow
  nextCursor : Option String
  snapshotId : Option String
  deriving DecidableEq

structure MetricsSummary extends SummaryRow where
  snapshotId : Option String
  deriving DecidableEq

inductive Response where
  | page (p : HourlyMetricsPage)
  | summary (s : MetricsSummary)
  deriving DecidableEq

/-- A gold table with its newest snapshot id. -/
structure Gold where
  snapshotId : Option String
  table : List GoldRow

abbrev Cache := SnapshotCache Value

/-- `a <= b`; timestamps with and without offset cannot be compared. -/
def compareLe (a b : DateTime) : Except ApiError Bool :=
  if a.offset.isSome = b.offset.isSome then .ok (a.instant ≤ b.instant) else .error .typeError

def checkWindow (f : MetricsFilter) : Except ApiError Unit :=
  match f.start, f.end_ with
  | some start, some end_ =>
      match compareLe end_ start with
      | .error e => .error e
      | .ok true => .error (.badRequest "end must be after start")
      | .ok false => .ok ()
  | _, _ => .ok ()

def decodeAfter (codec : CursorCodec) : Option String → Except ApiError (Option Cursor)
  | none => .ok none
  | some token =>
      match codec.decode token with
      | .ok c => .ok (some c)
      | .error detail => .error (.badRequest detail)

/-- What is done before the snapshot lookup. -/
def Request.check (codec : CursorCodec) (r : Request) : Except ApiError Checked :=
  match checkWindow r.filters with
  | .error e => .error e
  | .ok () =>
      match r.page with
      | none => .ok { filters := r.filters, page := none }
      | some p =>
          match decodeAfter codec p.cursor with
          | .error e => .error e
          | .ok after => .ok { filters := r.filters, page := some { p with after := after } }

/-- The limit in a key, where a limit of 0 reads as none. -/
def limitText : Option Nat → String
  | none => ""
  | some 0 => ""
  | some (n + 1) => toString (n + 1)

/-- A bound in a key. -/
def timeText (t : Option DateTime) : String := (t.map DateTime.isoformat).getD ""

/-- The parameters of a request, joined by bars. -/
def cacheKey (pre : String) (f : MetricsFilter) (limit : Option Nat) (cursor : Option String) :
    String :=
  Text.join "|" [pre, timeText f.start, timeText f.end_, f.countryCode.getD "",
    f.paymentMethod.getD "", limitText limit, cursor.getD ""]

namespace Checked

def limit (a : Checked) : Option Nat := a.page.map fun p => p.limit

def cursor (a : Checked) : Option String := a.page.bind fun p => p.cursor

def after (a : Checked) : Option Cursor := a.page.bind Page.after

def endpoint (a : Checked) : String := if a.page.isSome then "hourly" else "summary"

def key (a : Checked) : String := cacheKey a.endpoint a.filters a.limit a.cursor

/-- The query; one more row than the limit tells whether there is a next page. -/
def sql (a : Checked) : String × List Param :=
  match a.page with
  | some p => hourlyMetricsSql a.filters (p.limit + 1) p.after
  | none => summarySql a.filters

/-- Its answer on a gold table. -/
def build (a : Checked) (table : List GoldRow) : Value :=
  match a.page with
  | some p => .rows (hourlyRows table a.filters (p.limit + 1) p.after)
  | none => .totals (summaryRow table a.filters)

/-- The response to a request; a value of the other endpoint would raise. -/
def respond (codec : CursorCodec) (a : Checked) (snapshotId : Option String) (value : Value) :
    Except ApiError Response :=
  match a.page, value with
  | some p, .rows rows =>
      let page := rows.take p.limit
      let nextCursor :=
        if p.limit < rows.length then
          page.getLast?.map fun last => codec.encode
            { paymentHour := last.paymentHour, countryCode := last.countryCode,
              paymentMethod := last.paymentMethod }
        else none
      .ok (.page { data := page, nextCursor := nextCursor, snapshotId := snapshotId })
  | none, .totals row => .ok (.summary { toSummaryRow := row, snapshotId := snapshotId })
  | _, _ => .error .typeError

end Checked

/-- The entry of the snapshot under a key, which is filled in where there is none. -/
def cached (cache : Cache) (key : String) (snapshotId : Option String) (value : Value) :
    Value × Cache :=
  match cache.get snapshotId key with
  | (some hit, cache) => (hit, cache)
  | (none, cache) => (value, cache.put snapshotId key value)

/-- A request that no other one interrupts. -/
def serve (codec : CursorCodec) (gold : Gold) (cache : Cache) (r : Request) :
    Except ApiError Response × Cache :=
  match r.check codec with
  | .error e => (.error e, cache)
  | .ok a =>
      let (value, cache) := cached cache a.key gold.snapshotId (a.build gold.table)
      (a.respond codec gold.snapshotId value, cache)

def hourlyMetrics (codec : CursorCodec) (gold : Gold) (cache : Cache) (f : MetricsFilter)
    (limit : Nat) (cursor : Option String) : Except ApiError Response × Cache :=
  serve codec gold cache { filters := f, page := some { limit := limit, cursor := cursor } }

def metricsSummary (codec : CursorCodec) (gold : Gold) (cache : Cache) (f : MetricsFilter) :
    Except ApiError Response × Cache :=
  serve codec gold cache { filters := f, page := none }

/-- The same request with the cache bypassed. -/
def bypass (codec : CursorCodec) (gold : Gold) (r : Request) : Except ApiError Response :=
  match r.check codec with
  | .error e => .error e
  | .ok a => a.respond codec gold.snapshotId (a.build gold.table)

end PaymentsPlatform.Api
