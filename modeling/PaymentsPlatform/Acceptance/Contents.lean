import PaymentsPlatform.Acceptance.Checks

/-!
# The acceptance gate on any contents

The checks of `scripts/acceptance_checks.py` over tables as their DDL allows them, with
every column nullable and `auth_rate` a double. A condition that is UNKNOWN selects
nothing, and NaN is neither below 0 nor above 1, so the gate does not see a NULL where a
value is compared: `sound_iff`.
-/

namespace PaymentsPlatform.Acceptance

open Silver (SilverRow)

/-- A value of a `DOUBLE` column. -/
inductive Double where
  | nan
  | infinity (negative : Bool)
  | finite (q : ℚ)
  deriving DecidableEq

/-- `<` of IEEE 754: NaN is not comparable. -/
def Double.lt : Double → Double → Bool
  | .finite p, .finite q => p < q
  | .infinity true, .finite _ => true
  | .infinity true, .infinity false => true
  | .finite _, .infinity false => true
  | _, _ => false

/-- `a < b` of nullable doubles. -/
def ltDouble : Option Double → Option Double → Sql.Truth := Option.map₂ Double.lt

/-- The columns of gold that the checks read. -/
structure GoldRow where
  paymentHour : Option Int
  countryCode : Option String
  paymentMethod : Option String
  paymentCount : Option Int
  authRate : Option Double
  deriving DecidableEq

/-- Any contents of the three tables. -/
structure Contents where
  bronze : List (Option String)
  silver : List SilverRow
  gold : List GoldRow

/-- The counts of the queries, in the order of `checks`. -/
def counts (ws : SpaceClass) (c : Contents) : List Nat :=
  [c.bronze.length,
   c.silver.length,
   c.gold.length,
   countWhere (fun g : GoldRow => ((Sql.isNull g.countryCode).or (Sql.isNull g.paymentMethod)).or
     (Sql.isNull g.paymentHour)) c.gold,
   countWhere (fun g : GoldRow => (Sql.lt (some 0) g.paymentCount).not) c.gold,
   countWhere (fun g : GoldRow => (ltDouble g.authRate (some (.finite 0))).or
     (ltDouble (some (.finite 1)) g.authRate)) c.gold,
   countWhere (fun r : SilverRow => (Sql.isIn r.paymentMethod allowedMethods).not) c.silver,
   countWhere (fun r : SilverRow => (Sql.isIn r.paymentStatus allowedStatuses).not) c.silver,
   countWhere (fun r : SilverRow =>
     (Sql.isNull r.paymentId).or (Sql.isNull r.merchantId)) c.silver,
   (Sql.groups SilverRow.paymentId c.silver).countP fun g => decide (1 < g.2.length),
   countWhere (fun value : Option String => value.map fun text => hasRawId ws text.toList) c.bronze]

/-- `main`: the failures before it exits with an error. -/
def Contents.failures (ws : SpaceClass) (c : Contents) : List String :=
  ((checks ws).zip (counts ws c)).filterMap fun x =>
    if evaluate x.1.name x.2 then none
    else some (x.1.name ++ ": " ++ x.1.message ++ " (count=" ++ toString x.2 ++ ")")

/-- What the gate stands for. -/
structure Sound (c : Contents) : Prop where
  populated : c.bronze ≠ [] ∧ c.silver ≠ [] ∧ c.gold ≠ []
  methods : ∀ r ∈ c.silver, ∃ m ∈ allowedMethods, r.paymentMethod = some m
  statuses : ∀ r ∈ c.silver, ∃ s ∈ allowedStatuses, r.paymentStatus = some s
  keys : ∀ r ∈ c.silver, r.paymentId ≠ none ∧ r.merchantId ≠ none
  unique : (c.silver.map SilverRow.paymentId).Nodup
  dimensions : ∀ g ∈ c.gold, g.paymentHour ≠ none ∧ g.countryCode ≠ none ∧ g.paymentMethod ≠ none
  positive : ∀ g ∈ c.gold, ∃ n, g.paymentCount = some n ∧ 1 ≤ n
  rates : ∀ g ∈ c.gold, ∃ q, g.authRate = some (.finite q) ∧ 0 ≤ q ∧ q ≤ 1

/-- The compared columns that no check for NULLs covers have values, and the rates are not
NaN. -/
structure Valued (c : Contents) : Prop where
  methods : ∀ r ∈ c.silver, r.paymentMethod ≠ none
  statuses : ∀ r ∈ c.silver, r.paymentStatus ≠ none
  counts : ∀ g ∈ c.gold, g.paymentCount ≠ none
  rates : ∀ g ∈ c.gold, g.authRate ≠ none ∧ g.authRate ≠ some .nan

variable {ws : SpaceClass} {c : Contents} {name : String} {n : Nat}

theorem evaluate_has (has : startsWith "has_" name = true) : evaluate name n = true ↔ 0 < n := by
  simp [evaluate, has]

theorem evaluate_no (no : startsWith "has_" name = false) : evaluate name n = true ↔ n = 0 := by
  simp [evaluate, no]

/-- The gate passes exactly when every count is as its name says. -/
theorem failures_eq_nil : c.failures ws = [] ↔
    ∀ x ∈ (checks ws).zip (counts ws c), evaluate x.1.name x.2 = true := by
  rw [Contents.failures, List.filterMap_eq_nil_iff]
  refine forall₂_congr fun x _ => ?_
  split
  · simp [*]
  · simp [*]

/-- That is, when the tables have rows and the queries for violations find nothing. -/
theorem failures_eq_nil_iff : c.failures ws = [] ↔
    (c.bronze ≠ [] ∧ c.silver ≠ [] ∧ c.gold ≠ []) ∧ ∀ n ∈ (counts ws c).drop 3, n = 0 := by
  have has : ∀ name ∈ ["has_bronze_rows", "has_silver_rows", "has_gold_rows"],
      startsWith "has_" name = true := by decide
  have no : ∀ name ∈ ["no_null_gold_dimensions", "no_nonpositive_gold_counts",
      "no_out_of_range_auth_rate", "no_unknown_payment_methods", "no_unknown_payment_statuses",
      "no_null_silver_keys", "no_duplicate_silver_payment_ids", "no_unhashed_pii_in_bronze"],
      startsWith "has_" name = false := by decide
  simp only [List.forall_mem_cons, List.not_mem_nil, false_implies, implies_true, and_true]
    at has no
  simp only [failures_eq_nil, checks, counts, List.zip_cons_cons, List.zip_nil_left,
    List.forall_mem_cons, List.not_mem_nil, false_implies, implies_true, and_true,
    List.drop_succ_cons, List.drop_zero, evaluate_has, evaluate_no, has, no, List.length_pos_iff,
    and_assoc]

section Conditions

variable {g : GoldRow} {r : SilverRow} {literals : List String} {column : Option String}

theorem present_iff {a b : Option Int} :
    ((Sql.isNull a).or (Sql.isNull b)).holds = false ↔ a ≠ none ∧ b ≠ none := by
  simp [Option.isSome_iff_ne_none]

theorem named_iff : (((Sql.isNull g.countryCode).or (Sql.isNull g.paymentMethod)).or
    (Sql.isNull g.paymentHour)).holds = false ↔
      (g.countryCode ≠ none ∧ g.paymentMethod ≠ none) ∧ g.paymentHour ≠ none := by
  simp [Option.isSome_iff_ne_none]

theorem positive_iff : (Sql.lt (some 0) g.paymentCount).not.holds = false ↔
    ∀ n, g.paymentCount = some n → 1 ≤ n := by
  cases g.paymentCount with
  | none => simp [Sql.lt, Sql.Truth.not]
  | some n => simp [Sql.lt, Sql.Truth.not, Int.lt_iff_add_one_le]

theorem inRange_iff {rate : Option Double} :
    ((ltDouble rate (some (.finite 0))).or (ltDouble (some (.finite 1)) rate)).holds = false ↔
      rate = none ∨ rate = some .nan ∨ ∃ q, rate = some (.finite q) ∧ 0 ≤ q ∧ q ≤ 1 := by
  rcases rate with _ | _ | negative | q
  · simp [ltDouble]
  · simp [ltDouble, Double.lt]
  · cases negative <;> simp [ltDouble, Double.lt]
  · simp [ltDouble, Double.lt]

theorem allowed_iff : (Sql.isIn column literals).not.holds = false ↔
    ∀ x, column = some x → x ∈ literals := by
  cases column with
  | none => simp [Sql.isIn, Sql.Truth.not]
  | some x => simp [Sql.isIn, Sql.Truth.not]

theorem unexposed_iff : Sql.Truth.holds (column.map fun text => hasRawId ws text.toList) = false ↔
    ∀ text, column = some text → hasRawId ws text.toList = false := by
  cases column with
  | none => simp
  | some text => simp

theorem unique_iff {rows : List SilverRow} :
    ((Sql.groups SilverRow.paymentId rows).countP fun g => decide (1 < g.2.length)) = 0 ↔
      (rows.map SilverRow.paymentId).Nodup := by
  rw [List.countP_eq_zero, Sql.nodup_map_iff]
  constructor
  · intro single k
    by_cases hk : k ∈ rows.map SilverRow.paymentId
    · simpa using single _ (Sql.mem_groups.mpr ⟨hk, rfl⟩ : (k, Sql.partition _ k rows) ∈ _)
    · have empty : Sql.partition SilverRow.paymentId k rows = [] :=
        List.eq_nil_iff_forall_not_mem.mpr fun r hr => hk
          (List.mem_map.mpr ⟨r, Sql.mem_partition.mp hr⟩)
      rw [empty]
      exact Nat.zero_le 1
  · intro single g hg
    rw [(Sql.mem_groups.mp hg).2]
    simpa using single g.1

end Conditions

/-- The counts for violations are zero exactly when there are none, up to the values that
a comparison does not see. -/
theorem counts_eq_zero_iff : (∀ n ∈ (counts ws c).drop 3, n = 0) ↔
    (∀ g ∈ c.gold, (g.countryCode ≠ none ∧ g.paymentMethod ≠ none) ∧ g.paymentHour ≠ none) ∧
    (∀ g ∈ c.gold, ∀ n, g.paymentCount = some n → 1 ≤ n) ∧
    (∀ g ∈ c.gold, g.authRate = none ∨ g.authRate = some .nan ∨
      ∃ q, g.authRate = some (.finite q) ∧ 0 ≤ q ∧ q ≤ 1) ∧
    (∀ r ∈ c.silver, ∀ m, r.paymentMethod = some m → m ∈ allowedMethods) ∧
    (∀ r ∈ c.silver, ∀ s, r.paymentStatus = some s → s ∈ allowedStatuses) ∧
    (∀ r ∈ c.silver, r.paymentId ≠ none ∧ r.merchantId ≠ none) ∧
    (c.silver.map SilverRow.paymentId).Nodup ∧
    ∀ value ∈ c.bronze, ∀ text, value = some text → hasRawId ws text.toList = false := by
  simp only [counts, List.drop_succ_cons, List.drop_zero, List.forall_mem_cons, List.not_mem_nil,
    false_implies, implies_true, and_true, countWhere_eq_zero_iff, positive_iff, inRange_iff,
    allowed_iff, unexposed_iff, unique_iff, present_iff, named_iff]

/-- Contents that pass are sound exactly when the compared columns have values. -/
theorem sound_iff (ws : SpaceClass) (c : Contents) (passes : c.failures ws = []) :
    Sound c ↔ Valued c := by
  obtain ⟨populated, zero⟩ := failures_eq_nil_iff.mp passes
  obtain ⟨dimensions, positive, rates, methods, statuses, keys, unique, _⟩ :=
    counts_eq_zero_iff.mp zero
  constructor
  · intro sound
    refine ⟨fun r hr => ?_, fun r hr => ?_, fun g hg => ?_, fun g hg => ?_⟩
    · obtain ⟨m, _, hm⟩ := sound.methods r hr
      simp [hm]
    · obtain ⟨s, _, hs⟩ := sound.statuses r hr
      simp [hs]
    · obtain ⟨n, hn, _⟩ := sound.positive g hg
      simp [hn]
    · obtain ⟨q, hq, _⟩ := sound.rates g hg
      simp [hq]
  · intro valued
    refine ⟨populated, fun r hr => ?_, fun r hr => ?_, keys, unique, fun g hg => ?_, fun g hg => ?_,
      fun g hg => ?_⟩
    · obtain ⟨m, hm⟩ := Option.ne_none_iff_exists'.mp (valued.methods r hr)
      exact ⟨m, methods r hr m hm, hm⟩
    · obtain ⟨s, hs⟩ := Option.ne_none_iff_exists'.mp (valued.statuses r hr)
      exact ⟨s, statuses r hr s hs, hs⟩
    · obtain ⟨⟨country, method⟩, hour⟩ := dimensions g hg
      exact ⟨hour, country, method⟩
    · obtain ⟨n, hn⟩ := Option.ne_none_iff_exists'.mp (valued.counts g hg)
      exact ⟨n, hn, positive g hg n hn⟩
    · obtain ⟨present, number⟩ := valued.rates g hg
      exact ((rates g hg).resolve_left present).resolve_left number

/-- A payment of the sample table. -/
def samplePayment : SilverRow where
  paymentId := some 1
  merchantId := some 1
  amount := some 100
  currency := some "EUR"
  paymentMethod := some "card"
  paymentStatus := some "authorized"
  countryCode := some "NL"
  createdAt := some 0
  updatedAt := some 0
  sourceLsn := some 1
  ingestedAt := 0

def sampleMetric : GoldRow where
  paymentHour := some 0
  countryCode := some "NL"
  paymentMethod := some "card"
  paymentCount := some 1
  authRate := some (.finite 1)

/-- White space that is a blank. -/
def blank : SpaceClass where
  mem c := c == ' '
  space := rfl
  graphic c low _ := beq_eq_false_iff_ne.mpr fun same => absurd (same ▸ low) (by decide)

theorem sound_iff_sample : Sound ⟨[none], [samplePayment], [sampleMetric]⟩ := by
  refine (sound_iff blank _ (by decide +kernel)).mpr ⟨?_, ?_, ?_, ?_⟩ <;>
    simp [samplePayment, sampleMetric]

/-- A status that is NULL, and a count that is NULL with a rate that is NaN, pass the gate. -/
theorem nulls_pass :
    let c : Contents := ⟨[none], [{ samplePayment with paymentStatus := none }],
      [{ sampleMetric with paymentCount := none, authRate := some .nan }]⟩
    c.failures blank = [] ∧ ¬Sound c := by
  refine ⟨by decide +kernel, fun sound => ?_⟩
  obtain ⟨_, _, hstatus⟩ := sound.statuses _ (List.mem_singleton_self _)
  cases hstatus

end PaymentsPlatform.Acceptance
