import PaymentsPlatform.Silver.Changes

/-!
# Data-quality rules of the upserts

`_validate_upserts` of `config/spark/jobs/silver_payments.py`. Each rule counts the
rows it flags with `sum(CAST(condition AS INT))`, so a condition that is UNKNOWN
flags nothing, and one flagged row of the whole batch raises for the whole batch.

`validateUpserts_eq_ok` separates the rules: a set of upserts passes exactly when
every row passes on its own and no payment occurs twice.
-/

namespace PaymentsPlatform.Silver

/-- What the job raises: the failed rules with their counts, or the error of a
`MERGE` whose target row is matched by several source rows. -/
inductive JobError where
  | dataQuality (failures : List (String × Int))
  | mergeCardinality
  deriving DecidableEq, Repr

/-- `SUM`, which skips NULLs and is NULL when nothing is left. -/
def sparkSum (column : List (Option Int)) : Option Int :=
  match column.reduceOption with
  | [] => none
  | values => some values.sum

/-- What may follow a match of `$` in `java.util.regex`: nothing, or one line
terminator at the very end. -/
def endsInput : List Char → Bool
  | [] => true
  | ['\r', '\n'] => true
  | [c] => c == '\n' || c == '\r' || c == Char.ofNat 0x85 || c == Char.ofNat 0x2028 ||
      c == Char.ofNat 0x2029
  | _ => false

/-- `rlike("^[A-Z]{n}$")`, a find with default flags. -/
def matchesUpper (n : Nat) (text : String) : Bool :=
  decide ((text.toList.take n).length = n) && (text.toList.take n).all Char.isUpper &&
    endsInput (text.toList.drop n)

def rlikeUpper (n : Nat) (column : Option String) : Sql.Truth := column.map (matchesUpper n)

/-- The aggregated conditions, under the names they are reported by. -/
def qualityMetrics : List (String × (SilverRow → Sql.Truth)) :=
  [("null_payment_id", fun r => Sql.isNull r.paymentId),
   ("null_merchant_id", fun r => Sql.isNull r.merchantId),
   ("null_amount", fun r => Sql.isNull r.amount),
   ("negative_amount", fun r => Sql.lt r.amount (some 0)),
   ("null_currency", fun r => Sql.isNull r.currency),
   ("invalid_currency", fun r => (rlikeUpper 3 r.currency).not),
   ("null_payment_method", fun r => Sql.isNull r.paymentMethod),
   ("invalid_payment_method", fun r => (Sql.isIn r.paymentMethod allowedPaymentMethods).not),
   ("null_payment_status", fun r => Sql.isNull r.paymentStatus),
   ("invalid_payment_status", fun r => (Sql.isIn r.paymentStatus allowedPaymentStatuses).not),
   ("null_country_code", fun r => Sql.isNull r.countryCode),
   ("invalid_country_code", fun r => (rlikeUpper 2 r.countryCode).not),
   ("null_created_at", fun r => Sql.isNull r.createdAt),
   ("null_updated_at", fun r => Sql.isNull r.updatedAt),
   ("updated_before_created", fun r => Sql.lt r.updatedAt r.createdAt),
   ("null_source_lsn", fun r => Sql.isNull r.sourceLsn)]

/-- The value of one metric over the upserts. -/
def metricValue (check : SilverRow → Sql.Truth) (upserts : List Change) : Option Int :=
  sparkSum (upserts.map fun c => (check c.toSilverRow).toInt)

/-- Payments that occur more than once among the upserts. -/
def duplicatePaymentIds (upserts : List Change) : Int :=
  (((upserts.map fun c => c.paymentId).dedup.filter fun k =>
    k.isSome && decide (1 < upserts.countP fun c => c.paymentId = k)).length : Int)

/-- The metrics with a value that Python takes for true. -/
def qualityFailures (upserts : List Change) : List (String × Int) :=
  (qualityMetrics.filterMap fun metric =>
    match metricValue metric.2 upserts with
    | some n => if n ≠ 0 then some (metric.1, n) else none
    | none => none) ++
  if duplicatePaymentIds upserts ≠ 0 then
    [("duplicate_payment_ids", duplicatePaymentIds upserts)] else []

def validateUpserts (upserts : List Change) : Except JobError Unit :=
  if qualityFailures upserts = [] then .ok ()
  else .error (.dataQuality (qualityFailures upserts))

/-- No rule flags the row. -/
def passesQuality (r : SilverRow) : Bool :=
  qualityMetrics.all fun metric => !(metric.2 r).holds

variable {upserts : List Change} {r : SilverRow} {c : Change}

private theorem sparkSum_eq_zero_or_none {column : List (Option Int)}
    (nonneg : ∀ n, some n ∈ column → 0 ≤ n) :
    (∀ n, sparkSum column = some n → n = 0) ↔ ∀ n, some n ∈ column → n = 0 := by
  have hmem : ∀ n, n ∈ column.reduceOption ↔ some n ∈ column :=
    fun n => List.reduceOption_mem_iff
  unfold sparkSum
  cases hc : column.reduceOption with
  | nil => simp [← hmem, hc]
  | cons x xs =>
      have hpos : ∀ n ∈ x :: xs, 0 ≤ n := fun n hn => nonneg n ((hmem n).mp (hc ▸ hn))
      constructor
      · intro h n hn
        have hsum := h _ rfl
        exact (List.all_zero_of_le_zero_le_of_sum_eq_zero (fun {y} hy => hpos y hy) hsum)
          (by rw [← hc]; exact (hmem n).mpr hn)
      · rintro h n hn
        rw [← Option.some.inj hn]
        exact List.sum_eq_zero fun y hy => h y ((hmem y).mp (hc ▸ hy))

/-- A metric is reported exactly when it flags some row. -/
theorem metric_silent_iff (check : SilverRow → Sql.Truth) :
    (∀ n, metricValue check upserts = some n → n = 0) ↔
      ∀ c ∈ upserts, (check c.toSilverRow).holds = false := by
  unfold metricValue
  rw [sparkSum_eq_zero_or_none]
  · constructor
    · intro h c hc
      by_contra hflag
      have flagged := Sql.Truth.toInt_eq_some_one.mpr
        (Sql.Truth.holds_iff.mp (Bool.not_eq_false _ ▸ hflag))
      exact absurd (h 1 (List.mem_map.mpr ⟨c, hc, flagged⟩)) (by decide)
    · intro h n hn
      obtain ⟨c, hc, hval⟩ := List.mem_map.mp hn
      have silent := h c hc
      rcases hcheck : check c.toSilverRow with _ | _ | _
      · simp [hcheck, Sql.Truth.toInt] at hval
      · simpa [hcheck, Sql.Truth.toInt] using hval.symm
      · simp [hcheck] at silent
  · intro n hn
    obtain ⟨c, _, hval⟩ := List.mem_map.mp hn
    exact Sql.Truth.toInt_nonneg hval

theorem duplicatePaymentIds_eq_zero
    (unique : ∀ k : Int,
      (Sql.partition (fun c : Change => c.paymentId) (some k) upserts).length ≤ 1) :
    duplicatePaymentIds upserts = 0 := by
  unfold duplicatePaymentIds
  rw [Int.natCast_eq_zero, List.length_eq_zero_iff, List.filter_eq_nil_iff]
  intro k _ hdup
  rw [Bool.and_eq_true, decide_eq_true_eq, Option.isSome_iff_exists] at hdup
  obtain ⟨⟨k, rfl⟩, hcount⟩ := hdup
  rw [List.countP_eq_length_filter] at hcount
  exact absurd (unique k) (not_le.mpr hcount)

/-- The upserts pass exactly when no rule flags one of them and none of their
payments is duplicated. -/
theorem validateUpserts_eq_ok : validateUpserts upserts = .ok () ↔
    (∀ c ∈ upserts, passesQuality c.toSilverRow = true) ∧ duplicatePaymentIds upserts = 0 := by
  have metrics : (qualityMetrics.filterMap fun metric =>
      match metricValue metric.2 upserts with
      | some n => if n ≠ 0 then some (metric.1, n) else none
      | none => none) = [] ↔ ∀ c ∈ upserts, passesQuality c.toSilverRow = true := by
    rw [List.filterMap_eq_nil_iff]
    have each : ∀ metric ∈ qualityMetrics,
        (match metricValue metric.2 upserts with
          | some n => if n ≠ 0 then some (metric.1, n) else none
          | none => none) = none ↔ ∀ c ∈ upserts, (metric.2 c.toSilverRow).holds = false := by
      intro metric _
      rw [← metric_silent_iff]
      cases metricValue metric.2 upserts <;> simp
    constructor
    · intro h c hc
      rw [passesQuality, List.all_eq_true]
      intro metric hm
      simp [(each metric hm).mp (h metric hm) c hc]
    · intro h metric hm
      refine (each metric hm).mpr fun c hc => ?_
      have := List.all_eq_true.mp (h c hc) metric hm
      simpa using this
  have whole : qualityFailures upserts = [] ↔
      (∀ c ∈ upserts, passesQuality c.toSilverRow = true) ∧ duplicatePaymentIds upserts = 0 := by
    rw [qualityFailures, List.append_eq_nil_iff, metrics]
    simp
  rw [← whole, validateUpserts]
  split <;> simp_all

theorem validateUpserts_singleton :
    validateUpserts [c] = .ok () ↔ passesQuality c.toSilverRow = true := by
  rw [validateUpserts_eq_ok, duplicatePaymentIds_eq_zero]
  · simp
  · intro k
    exact (List.length_filter_le _ _).trans (le_refl _)

@[simp] theorem validateUpserts_nil : validateUpserts [] = .ok () := by
  rw [validateUpserts_eq_ok]
  exact ⟨by simp, rfl⟩

theorem paymentId_of_passesQuality (h : passesQuality r = true) : ∃ k, r.paymentId = some k := by
  rw [passesQuality, List.all_eq_true] at h
  have := h ("null_payment_id", fun r => Sql.isNull r.paymentId) (by simp [qualityMetrics])
  exact Option.isSome_iff_exists.mp (by simpa using this)

theorem sourceLsn_of_passesQuality (h : passesQuality r = true) : ∃ l, r.sourceLsn = some l := by
  rw [passesQuality, List.all_eq_true] at h
  have := h ("null_source_lsn", fun r => Sql.isNull r.sourceLsn) (by simp [qualityMetrics])
  exact Option.isSome_iff_exists.mp (by simpa using this)

end PaymentsPlatform.Silver
