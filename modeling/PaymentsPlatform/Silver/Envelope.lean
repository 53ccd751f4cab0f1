import PaymentsPlatform.Silver.Changes

/-!
# Concrete envelopes

An instance of `SparkFunctions` that can be evaluated. A document is given by the
text `get_json_object` finds at each path; the casts accept plain decimal numerals,
and the time functions cover the first day of the epoch. `envelope` builds the
documents that the tests of the job build.
-/

namespace PaymentsPlatform.Silver

/-- A document, as its scalar fields with their paths. -/
abbrev Envelope := List (String × String)

/-- The value of a non-empty string of decimal digits. -/
def decimalDigits (cs : List Char) : Option Int :=
  if cs ≠ [] && cs.all Char.isDigit then some (Nat.ofDigitChars 10 cs 0 : Nat) else none

/-- A numeral with an optional sign. -/
def decimalNumeral (text : String) : Option Int :=
  match text.toList with
  | '-' :: cs => (decimalDigits cs).map fun n => -n
  | cs => decimalDigits cs

/-- A numeral with no or two digits after the point, in units of the last one. -/
def decimalHundredths (text : String) : Option Int :=
  match text.toList.span (· ≠ '.') with
  | (whole, []) => (decimalDigits whole).map fun n => 100 * n
  | (whole, _ :: fraction) =>
      if fraction.length = 2 then
        (decimalDigits whole).bind fun n => (decimalDigits fraction).map fun m => 100 * n + m
      else none

/-- `HH:mm:ss` on the first day of the epoch. -/
def epochDayText (seconds : Int) : Option String :=
  if 0 ≤ seconds ∧ seconds < 86400 then
    let pair (n : Int) : String := toString (n / 10) ++ toString (n % 10)
    some ("1970-01-01 " ++ pair (seconds / 3600) ++ ":" ++ pair (seconds / 60 % 60) ++ ":" ++
      pair (seconds % 60))
  else none

/-- The timestamp of such a text, in microseconds. -/
def epochDayTimestamp (text : String) : Option Int :=
  match text.toList with
  | ['1', '9', '7', '0', '-', '0', '1', '-', '0', '1', ' ', h₁, h₂, ':', m₁, m₂, ':', s₁, s₂] =>
      (decimalDigits [h₁, h₂]).bind fun h => (decimalDigits [m₁, m₂]).bind fun m =>
        (decimalDigits [s₁, s₂]).map fun s => (3600 * h + 60 * m + s) * 1000000
  | _ => none

/-- Doubles are multiples of a millionth here, counted in millionths. -/
def sampleSpark : SparkFunctions Envelope Int where
  getJsonObject document path := document.lookup path
  castLong := decimalNumeral
  castDecimal := decimalHundredths
  castDouble text := (decimalNumeral text).map fun n => n * 1000000
  divide x n := x / n
  fromUnixtime x := epochDayText (x / 1000000)
  castTimestamp := epochDayTimestamp
  upper text := String.ofList (text.toList.map Char.toUpper)
  lower text := String.ofList (text.toList.map Char.toLower)

/-- A Debezium envelope; a delete carries only the key in `before`. -/
def envelope (op : String) (paymentId lsn : Nat) (status : String) : Envelope :=
  if op = "d" then
    [("$.op", op), ("$.source.lsn", toString lsn), ("$.before.payment_id", toString paymentId)]
  else
    [("$.op", op), ("$.source.lsn", toString lsn), ("$.after.payment_id", toString paymentId),
     ("$.after.merchant_id", "7"), ("$.after.amount", "100.00"), ("$.after.currency", "USD"),
     ("$.after.payment_method", "card"), ("$.after.payment_status", status),
     ("$.after.country_code", "US"), ("$.after.created_at", "3600000000"),
     ("$.after.updated_at", "3661000000")]

/-- A record of the only partition. -/
def recordAt (offset : Int) (document : Envelope) : Record Envelope :=
  { kafkaPartition := 0, kafkaOffset := offset, kafkaValue := some document }

/-- Payment 1 is created and updated; payment 2 is created and deleted. -/
def sampleLog : List (Record Envelope) :=
  [recordAt 0 (envelope "c" 1 10 "pending"), recordAt 1 (envelope "c" 2 11 "pending"),
   recordAt 2 (envelope "d" 2 12 ""), recordAt 3 (envelope "u" 1 13 "authorized")]

/-- A micro-batch of a stretch of the log. -/
def sampleBatch (batchId : Int) (records : List (Record Envelope)) : MicroBatch Envelope :=
  { batchId := batchId, now := batchId, records := records }

example : changeOf sampleSpark 5 (some (envelope "u" 1 20 "authorized")) =
    { op := some "u", paymentId := some 1, merchantId := some 7, amount := some 10000,
      currency := some "USD", paymentMethod := some "card", paymentStatus := some "authorized",
      countryCode := some "US", createdAt := some 3600000000, updatedAt := some 3661000000,
      sourceLsn := some 20, ingestedAt := 5 } := by
  decide

end PaymentsPlatform.Silver
