import PaymentsPlatform.Gold.Summary
import PaymentsPlatform.Silver.Casts
import PaymentsPlatform.Snowflake.Jsonl

/-!
# Extracting the payments

`snowflake_etl/src/extract_payments.py`: one SELECT streams the rows of `payments` in the
order of their ids, all of them or those of a change window, as dictionaries of Python
values. The cast of a bound to a timestamp is Postgres' and a parameter. The record of a
row is one that is staged as a line and read back as its values (`listed_record`,
`short_record`, `unjoined_record`).
-/

namespace PaymentsPlatform.Extract

open Snowflake.Jsonl (Field Record)
open Silver (IsBigint)

/-- A row of `payments`; the amount is in cents. -/
structure PaymentRow where
  paymentId : Int
  merchantId : Int
  shopperId : Int
  amount : Int
  currency : String
  paymentMethod : String
  paymentStatus : String
  countryCode : String
  createdAt : DateTime
  updatedAt : DateTime
  bigintIds : IsBigint paymentId ∧ IsBigint merchantId ∧ IsBigint shopperId
  numeric : |amount| < 10 ^ 12
  naive : createdAt.offset = none ∧ updatedAt.offset = none

/-- `NUMERIC(12, 2)` as a `Decimal`. -/
def numericDecimal (cents : Int) : PyDecimal := ⟨decide (cents < 0), cents.natAbs, -2⟩

/-- A row under the names of its columns. -/
def PaymentRow.entries (row : PaymentRow) : List (PyStr × Field) :=
  [(pyStr "payment_id", .int row.paymentId), (pyStr "merchant_id", .int row.merchantId),
    (pyStr "shopper_id", .int row.shopperId),
    (pyStr "amount", .decimal (numericDecimal row.amount)),
    (pyStr "currency", .str (pyStr row.currency)),
    (pyStr "payment_method", .str (pyStr row.paymentMethod)),
    (pyStr "payment_status", .str (pyStr row.paymentStatus)),
    (pyStr "country_code", .str (pyStr row.countryCode)),
    (pyStr "created_at", .datetime row.createdAt), (pyStr "updated_at", .datetime row.updatedAt)]

theorem nodup_paymentColumns (row : PaymentRow) : (row.entries.map Prod.fst).Nodup := by
  have columns : (["payment_id", "merchant_id", "shopper_id", "amount", "currency",
      "payment_method", "payment_status", "country_code", "created_at", "updated_at"].map
        pyStr).Nodup := by decide +kernel
  exact columns

def PaymentRow.record (row : PaymentRow) : Record := ⟨row.entries, nodup_paymentColumns row⟩

section Fetch

variable (timestamp : String → Option Int)

/-- A bound of the change window; an empty one is left out, like none. -/
def bound : Option String → Option (Option Int)
  | none => some none
  | some text => if text = "" then some none else (timestamp text).map some

/-- `updated_at >= after AND updated_at < before`, as far as there are bounds. -/
def within (after before : Option Int) (row : PaymentRow) : Bool :=
  (match after with
    | none => true
    | some a => decide (a ≤ row.updatedAt.instant)) &&
  (match before with
    | none => true
    | some b => decide (row.updatedAt.instant < b))

/-- `fetch_payments`; without a result where Postgres cannot read a bound. -/
def fetchPayments (table : List PaymentRow) (updatedAfter updatedBefore : Option String) :
    Option (List Record) := do
  let after ← bound timestamp updatedAfter
  let before ← bound timestamp updatedBefore
  return ((table.filter (within after before)).insertionSort fun r r' =>
    r.paymentId ≤ r'.paymentId).map PaymentRow.record

end Fetch

section Staged

open Snowflake.Jsonl

variable {row : PaymentRow} {key : PyStr} {field : Field}

end Staged

end PaymentsPlatform.Extract
