import PaymentsPlatform.Arithmetic.Rounding
import PaymentsPlatform.Silver.Envelope
import PaymentsPlatform.Text.Decimal

/-!
# The casts of the projection

`Documented` collects what the projection relies on in Spark: numerals are read exactly,
doubles are those of IEEE 754, and `from_unixtime` takes whole seconds. From it follows
what `_micros_to_timestamp` makes of the microseconds of a TIMESTAMP, `secondsOf`, and when
they survive: `secondsOf_mul_eq_iff`. Before `2 ^ 59` microseconds the double quotient of a
whole second is exact; from there on it may fall short of the second.
-/

namespace PaymentsPlatform.Silver

open Arithmetic

/-- A value of a BIGINT column, or of a 64-bit field of an event. -/
def IsBigint (n : Int) : Prop := -2 ^ 63 ≤ n ∧ n < 2 ^ 63

/-- The text of a NUMERIC with two digits after the point. -/
def numericText (hundredths : Int) : String :=
  (if hundredths < 0 then "-" else "") ++ toString (hundredths.natAbs / 100) ++ "." ++
    String.ofList (Text.zeroPadded 2 (hundredths.natAbs % 100))

/-- The whole seconds of the double quotient of a number of microseconds. -/
def secondsOf (micros : Int) : Int := truncate (roundTo 53 (roundTo 53 micros / 1000000))

/-- The number is one of whole seconds, and rounding it to 53 bits does not bring it so
much closer to zero that the quotient falls short of them. -/
def KeepsSecond (micros : Int) : Prop :=
  1000000 ∣ micros ∧ (|(micros : ℚ)| - |roundTo 53 micros|) * 2 ^ 53 <
    1000000 * 2 ^ Nat.log 2 (micros / 1000000).natAbs

/-- What the projection relies on in Spark. Numerals are read exactly, a double is the
nearest one, also after a division, and a double of seconds goes through `from_unixtime`
and back with its whole seconds, where these fit in a timestamp. -/
structure Documented {Value Double : Type} (sp : SparkFunctions Value Double)
    (value : Double → ℚ) : Prop where
  castLong : ∀ n : Int, IsBigint n → sp.castLong (toString n) = some n
  castDecimal : ∀ n : Int, |n| < 10 ^ 12 → sp.castDecimal (numericText n) = some n
  castDouble : ∀ n : Int, IsBigint n →
    ∃ x, sp.castDouble (toString n) = some x ∧ value x = roundTo 53 n
  divide : ∀ x (n : Int), |n| ≤ 2 ^ 63 → value x = n →
    value (sp.divide x 1000000) = roundTo 53 (n / 1000000)
  wholeSeconds : ∀ x, IsBigint (truncate (value x) * 1000000) →
    (sp.fromUnixtime x).bind sp.castTimestamp = some (truncate (value x) * 1000000)

variable {n s m : ℤ} {r : ℚ}

/-- The quotient of a rounded number of seconds, when the rounding adds to it. -/
theorem truncate_of_le (positive : 0 < s) (small : s ≤ 2 ^ 53) (up : 1000000 * s ≤ m)
    (error : m - 1000000 * s ≤ 1024) (near : Nearest 53 (m / 1000000) r) : truncate r = s := by
  have up : (1000000 : ℚ) * s ≤ m := by exact_mod_cast up
  have error : (m : ℚ) - 1000000 * s ≤ 1024 := by exact_mod_cast error
  have whole : Representable 53 (s : ℚ) :=
    representable_intCast (by decide) (by rwa [abs_of_pos positive])
  have least : (s : ℚ) ≤ r := near.le whole (by linarith)
  have nonneg : (0 : ℚ) < s := by exact_mod_cast positive
  have closer := near.closest s whole
  rw [abs_sub_comm, abs_of_nonneg (show (0 : ℚ) ≤ m / 1000000 - s by linarith)] at closer
  have most := (le_abs_self _).trans closer
  rw [truncate_of_nonneg (by linarith), Int.floor_eq_iff]
  exact ⟨least, by linarith⟩

theorem half_step_eq (k : ℕ) : (2 : ℚ) ^ ((k : ℤ) - (53 : ℕ)) =
    (1000000 * 2 ^ k : ℤ) / (1000000 * 2 ^ 53) := by
  rw [zpow_sub₀ two_ne_zero, zpow_natCast, zpow_natCast]
  push_cast
  ring

/-- The margin below a number of seconds against half of a distance of doubles, in units of
both. -/
theorem margin_iff {k : ℕ} : (((s : ℚ) - m / 1000000 < 2 ^ ((k : ℤ) - (53 : ℕ))) ↔
      (1000000 * s - m) * 2 ^ 53 < 1000000 * 2 ^ k) ∧
    ((2 ^ ((k : ℤ) - (53 : ℕ)) < (s : ℚ) - m / 1000000) ↔
      1000000 * 2 ^ k < (1000000 * s - m) * 2 ^ 53) := by
  have margin : (s : ℚ) - m / 1000000 =
      ((1000000 * s - m) * 2 ^ 53 : ℤ) / (1000000 * 2 ^ 53) := by
    push_cast
    ring
  rw [margin, half_step_eq, div_lt_div_iff_of_pos_right (by norm_num), Int.cast_lt,
    div_lt_div_iff_of_pos_right (by norm_num), Int.cast_lt]
  exact ⟨.rfl, .rfl⟩

/-- The margin is not half of a distance of doubles: that has too many factors of two. -/
theorem margin_ne {k : ℕ} (bound : k < 44) :
    (1000000 * s - m) * 2 ^ 53 ≠ 1000000 * 2 ^ k := by
  intro tie
  have split : (2 : ℤ) ^ 53 = 2 ^ 10 * 2 ^ (43 - k) * 2 ^ k := by
    rw [← pow_add, ← pow_add]
    congr 1
    omega
  rw [split, ← mul_assoc] at tie
  have cancelled := mul_right_cancel₀ (pow_ne_zero k two_ne_zero) tie
  have divides : (2 : ℤ) ^ 10 ∣ 1000000 :=
    ⟨(1000000 * s - m) * 2 ^ (43 - k), by rw [mul_left_comm, cancelled]⟩
  exact absurd divides (by decide)

/-- A million powers of two are a double. -/
theorem representable_million_mul_pow (k : ℕ) : Representable 53 (1000000 * 2 ^ k) :=
  ⟨15625, k + 6, by decide, by rw [zpow_add₀ two_ne_zero, zpow_natCast]; norm_num; ring⟩

/-- When the rounding takes from it, the quotient is the number of seconds if what is
taken is less than half of the distance of the doubles there, and else it falls short. -/
theorem truncate_of_lt (positive : 0 < s) (small : s < 2 ^ 44) (down : m < 1000000 * s)
    (rounded : Nearest 53 ((1000000 * s : ℤ) : ℚ) m) (near : Nearest 53 (m / 1000000) r) :
    truncate r = s ↔ (1000000 * s - m) * 2 ^ 53 < 1000000 * 2 ^ Nat.log 2 s.natAbs := by
  obtain ⟨s, rfl⟩ := Int.eq_ofNat_of_zero_le positive.le
  rw [Int.natAbs_natCast]
  have nonzero : s ≠ 0 := by omega
  have lower := Nat.pow_log_le_self 2 nonzero
  have upper := Nat.lt_pow_succ_log_self one_lt_two s
  have bound : Nat.log 2 s < 44 := Nat.log_lt_of_lt_pow nonzero (by exact_mod_cast small)
  generalize Nat.log 2 s = k at lower upper bound ⊢
  have whole : Representable 53 ((s : ℤ) : ℚ) :=
    representable_intCast (by decide) (by rw [abs_of_pos positive]; omega)
  have between : 2 ^ k < s := by
    refine lt_of_le_of_ne lower fun power => ?_
    have exact_ := rounded.eq_self (by
      rw [← power]
      push_cast
      exact representable_million_mul_pow k)
    have : m = 1000000 * s := by exact_mod_cast exact_
    omega
  have above : (m : ℚ) / 1000000 < ((s : ℤ) : ℚ) := by
    rw [div_lt_iff₀ (by norm_num), mul_comm]
    exact_mod_cast down
  have between : (2 : ℚ) ^ (k : ℤ) < ((s : ℤ) : ℚ) := by exact_mod_cast between
  obtain ⟨close, far⟩ := margin_iff (s := s) (m := m) (k := k)
  constructor
  · intro same
    rcases lt_trichotomy ((1000000 * (s : ℤ) - m) * 2 ^ 53) (1000000 * 2 ^ k) with less | tie | more
    · exact less
    · exact absurd tie (margin_ne bound)
    · have short := truncate_lt positive (near.lt_of_far whole (by decide) between
        (by exact_mod_cast upper.le) (far.mpr more))
      omega
  · intro less
    rw [near.eq_of_near whole (by decide) between above (close.mpr less),
      truncate_of_nonneg (by simp)]
    exact Int.floor_intCast _

theorem truncate_eq_iff (positive : 0 < s) (small : s < 2 ^ 44) (error : m - 1000000 * s ≤ 1024)
    (rounded : Nearest 53 ((1000000 * s : ℤ) : ℚ) m) (near : Nearest 53 (m / 1000000) r) :
    truncate r = s ↔ (1000000 * s - m) * 2 ^ 53 < 1000000 * 2 ^ Nat.log 2 s.natAbs := by
  rcases lt_or_ge m (1000000 * s) with down | up
  · exact truncate_of_lt positive small down rounded near
  · have margin : (0 : ℤ) < 1000000 * 2 ^ Nat.log 2 s.natAbs := by positivity
    exact iff_of_true (truncate_of_le positive (by omega) up error near) (by linarith)

/-- A bigint is rounded by at most 1024. -/
theorem abs_sub_roundTo_bigint (big : IsBigint n) : |(n : ℚ) - roundTo 53 n| ≤ 1024 := by
  refine (abs_sub_roundTo_le_half 53 n).trans ?_
  have exponent : Int.log 2 |(n : ℚ)| ≤ 63 := by
    by_cases zero : n = 0
    · simp [zero]
    · refine Int.lt_add_one_iff.mp ((Int.lt_zpow_iff_log_lt one_lt_two ?_).mp ?_)
      · exact abs_pos.mpr (by exact_mod_cast zero)
      · have : |n| < 2 ^ 64 := by
          rw [abs_lt]
          exact ⟨by have := big.1; omega, by have := big.2; omega⟩
        exact_mod_cast this
  have step : spacing 53 (n : ℚ) ≤ 2 ^ (11 : ℤ) :=
    zpow_le_zpow_right₀ one_le_two (by push_cast; omega)
  norm_num at step
  linarith

/-- On either side of zero, what counts is how much closer to zero the rounding brings it. -/
theorem truncate_eq_iff_abs (nonzero : s ≠ 0) (small : |s| < 2 ^ 44)
    (error : |1000000 * s - m| ≤ 1024) (rounded : Nearest 53 ((1000000 * s : ℤ) : ℚ) m)
    (near : Nearest 53 (m / 1000000) r) :
    truncate r = s ↔ (|1000000 * s| - |m|) * 2 ^ 53 < 1000000 * 2 ^ Nat.log 2 s.natAbs := by
  obtain ⟨left, right⟩ := abs_lt.mp small
  obtain ⟨above, below⟩ := abs_le.mp error
  rcases lt_or_gt_of_ne nonzero with negative | positive
  · have mirrored := truncate_eq_iff (s := -s) (m := -m) (r := -r) (by omega) (by omega) (by omega)
      (by simpa using rounded.neg) (by simpa [neg_div] using near.neg)
    rw [truncate_neg, neg_inj, Int.natAbs_neg] at mirrored
    rw [mirrored, abs_of_neg (show 1000000 * s < 0 by omega), abs_of_neg (show m < 0 by omega),
      mul_neg]
  · rw [truncate_eq_iff positive (by omega) (by omega) rounded near,
      abs_of_pos (show 0 < 1000000 * s by omega), abs_of_pos (show 0 < m by omega)]

@[simp] theorem secondsOf_zero : secondsOf 0 = 0 := by
  simp [secondsOf, truncate]

/-- The microseconds come back from their seconds exactly when the second is kept. -/
theorem secondsOf_mul_eq_iff (big : IsBigint n) : secondsOf n * 1000000 = n ↔ KeepsSecond n := by
  by_cases whole : 1000000 ∣ n
  · obtain ⟨s, rfl⟩ := whole
    obtain ⟨m, hm⟩ := exists_roundTo_intCast (p := 53) (by decide) (1000000 * s)
    have error : |1000000 * s - m| ≤ 1024 := by
      exact_mod_cast hm ▸ abs_sub_roundTo_bigint big
    have margin : KeepsSecond (1000000 * s) ↔
        (|1000000 * s| - |m|) * 2 ^ 53 < 1000000 * 2 ^ Nat.log 2 s.natAbs := by
      rw [KeepsSecond, and_iff_right (dvd_mul_right _ _), Int.mul_ediv_cancel_left _ (by decide),
        hm]
      exact_mod_cast Iff.rfl
    have same : secondsOf (1000000 * s) * 1000000 = 1000000 * s ↔ secondsOf (1000000 * s) = s := by
      omega
    rw [margin, same]
    by_cases zero : s = 0
    · subst zero
      have shorter := abs_nonneg m
      simp only [mul_zero, secondsOf_zero, abs_zero, true_iff, Int.natAbs_zero,
        Nat.log_zero_right, pow_zero]
      linarith
    · obtain ⟨above, below⟩ := abs_le.mp error
      obtain ⟨low, high⟩ := big
      rw [secondsOf, hm]
      exact truncate_eq_iff_abs zero (abs_lt.mpr ⟨by omega, by omega⟩) error
        (hm ▸ nearest_roundTo (by decide) _) (nearest_roundTo (by decide) _)
  · refine iff_of_false (fun same => whole ⟨secondsOf n, ?_⟩) fun kept => whole kept.1
    rw [mul_comm, same]

/-- Before `2 ^ 59` microseconds a whole second is kept. -/
theorem keepsSecond_iff_dvd (early : |n| < 2 ^ 59) : KeepsSecond n ↔ 1000000 ∣ n := by
  refine and_iff_left_of_imp ?_
  rintro ⟨s, rfl⟩
  have double : Representable 53 ((1000000 * s : ℤ) : ℚ) := by
    refine ⟨15625 * s, 6, ?_, by push_cast; ring⟩
    rw [abs_lt] at early ⊢
    omega
  rw [roundTo_of_representable (by decide) double, sub_self, zero_mul]
  positivity

/-- The largest timestamps leave room for the fractions that rounding may add. -/
theorem abs_truncate_le (small : |m| ≤ 2 ^ 63) (near : Nearest 53 (m / 1000000) r) :
    |truncate r| ≤ 9223372036854 := by
  have room : Representable 53 (9223372036854 + 7 / 8) :=
    ⟨73786976294839, -3, by decide, by norm_num⟩
  have bound : ∀ {m : ℤ} {r : ℚ}, m ≤ 2 ^ 63 → Nearest 53 (m / 1000000) r →
      truncate r ≤ 9223372036854 := fun {m r} most near => by
    have most : (m : ℚ) ≤ 2 ^ 63 := by exact_mod_cast most
    have below := near.ge room (by linarith)
    have := truncate_lt (m := 9223372036855) (q := r) (by decide) (by push_cast; linarith)
    omega
  obtain ⟨lower, upper⟩ := abs_le.mp small
  refine abs_le.mpr ⟨?_, bound upper near⟩
  have := bound (m := -m) (r := -r) (by omega) (by simpa [neg_div] using near.neg)
  rw [truncate_neg] at this
  omega

theorem abs_roundTo_bigint_le (big : IsBigint n) : |roundTo 53 n| ≤ 2 ^ 63 := by
  have near := nearest_roundTo (p := 53) (by decide) n
  have power : Representable 53 (2 ^ 63) := ⟨1, 63, by decide, by norm_num⟩
  have lower : (-2 ^ 63 : ℚ) ≤ n := by exact_mod_cast big.1
  have upper : (n : ℚ) ≤ 2 ^ 63 := by exact_mod_cast big.2.le
  exact abs_le.mpr ⟨near.le power.neg lower, near.ge power upper⟩

section Projection

variable {Value Double : Type} {sp : SparkFunctions Value Double} {value : Double → ℚ}

/-- A timestamp arrives as its whole seconds. -/
theorem Documented.microsToTimestamp_eq (spark : Documented sp value) (big : IsBigint n) :
    microsToTimestamp sp (some (toString n)) = some (secondsOf n * 1000000) := by
  obtain ⟨x, read, hx⟩ := spark.castDouble n big
  obtain ⟨m, hm⟩ := exists_roundTo_intCast (p := 53) (by decide) n
  have small : |m| ≤ 2 ^ 63 := by exact_mod_cast hm ▸ abs_roundTo_bigint_le big
  have quotient : value (sp.divide x 1000000) = roundTo 53 (m / 1000000) :=
    spark.divide x m small (hx.trans hm)
  have seconds : truncate (value (sp.divide x 1000000)) = secondsOf n := by
    rw [quotient, secondsOf, hm]
  have fits : IsBigint (truncate (value (sp.divide x 1000000)) * 1000000) := by
    rw [quotient]
    obtain ⟨lower, upper⟩ := abs_le.mp (abs_truncate_le small (nearest_roundTo (by decide) _))
    exact ⟨by omega, by omega⟩
  rw [microsToTimestamp, Option.bind_some, read, Option.bind_some, spark.wholeSeconds _ fits,
    seconds]

end Projection

/-- A numeral with two digits after the point and an optional sign. -/
def signedHundredths (text : String) : Option Int :=
  match text.toList with
  | '-' :: cs => (decimalHundredths (String.ofList cs)).map fun n => -n
  | _ => decimalHundredths text

/-- Spark with the doubles of IEEE 754. Outside the first day of the epoch a numeral with a
plus sign stands for the text of a timestamp. -/
def ieeeSpark : SparkFunctions Envelope ℚ where
  getJsonObject document path := document.lookup path
  castLong := decimalNumeral
  castDecimal := signedHundredths
  castDouble text := (decimalNumeral text).map fun n : Int => roundTo 53 n
  divide x n := roundTo 53 (x / n)
  fromUnixtime x := (epochDayText (truncate x)).or (some ("+" ++ toString (truncate x)))
  castTimestamp text :=
    match text.toList with
    | '+' :: cs => (decimalNumeral (String.ofList cs)).map (· * 1000000)
    | _ => epochDayTimestamp text
  upper text := String.ofList (text.toList.map Char.toUpper)
  lower text := String.ofList (text.toList.map Char.toLower)

theorem decimalDigits_zeroPadded (width n : Nat) :
    decimalDigits (Text.zeroPadded width n) = some (n : Int) := by
  have digits : (Text.zeroPadded width n).all Char.isDigit = true :=
    List.all_eq_true.mpr fun c hc => Text.isDigit_of_mem_zeroPadded hc
  have nonempty : Text.zeroPadded width n ≠ [] := by
    simp [Text.zeroPadded, List.leftpad, Nat.toDigits_ne_nil]
  rw [decimalDigits, if_pos (by simp [digits, nonempty]), Text.ofDigitChars_zeroPadded]

theorem toList_toString_nat (n : Nat) : (toString n).toList = Text.zeroPadded 0 n := by
  simp [Text.zeroPadded, List.leftpad]

theorem not_minus_zeroPadded {width n : Nat} {cs : List Char} :
    Text.zeroPadded width n ≠ '-' :: cs := fun same =>
  absurd (Text.isDigit_of_mem_zeroPadded (same ▸ List.mem_cons_self)) (by decide)

theorem decimalNumeral_toString (n : Int) : decimalNumeral (toString n) = some n := by
  cases n with
  | ofNat n =>
      have text : (toString (Int.ofNat n)).toList = Text.zeroPadded 0 n := toList_toString_nat n
      rw [decimalNumeral, text]
      split
      · rename_i same
        exact absurd same not_minus_zeroPadded
      · exact decimalDigits_zeroPadded 0 n
  | negSucc n =>
      have text : (toString (Int.negSucc n)).toList = '-' :: Text.zeroPadded 0 (n + 1) := by
        rw [← toList_toString_nat]
        exact String.toList_append
      rw [decimalNumeral, text]
      simp only [decimalDigits_zeroPadded, Option.map_some]
      rfl

theorem decimalHundredths_zeroPadded (n : Nat) :
    decimalHundredths (String.ofList (Text.zeroPadded 0 (n / 100) ++
      '.' :: Text.zeroPadded 2 (n % 100))) = some (n : Int) := by
  have digit : ∀ c ∈ Text.zeroPadded 0 (n / 100), decide (c ≠ '.') = true := fun c hc =>
    decide_eq_true fun same => absurd (same ▸ Text.isDigit_of_mem_zeroPadded hc) (by decide)
  have split : (Text.zeroPadded 0 (n / 100) ++ '.' :: Text.zeroPadded 2 (n % 100)).span
      (· ≠ '.') = (Text.zeroPadded 0 (n / 100), '.' :: Text.zeroPadded 2 (n % 100)) := by
    rw [List.span_eq_takeWhile_dropWhile, List.takeWhile_append_of_pos digit,
      List.dropWhile_append_of_pos digit]
    simp
  have two : (Text.zeroPadded 2 (n % 100)).length = 2 :=
    Text.length_zeroPadded (by decide) (Nat.mod_lt n (by decide))
  rw [decimalHundredths, String.toList_ofList, split]
  simp only [two, if_true, decimalDigits_zeroPadded, Option.bind_some, Option.map_some]
  congr 1
  omega

theorem signedHundredths_numericText (n : Int) :
    signedHundredths (numericText n) = some n := by
  have text : (numericText n).toList = (if n < 0 then ['-'] else []) ++
      (Text.zeroPadded 0 (n.natAbs / 100) ++ '.' :: Text.zeroPadded 2 (n.natAbs % 100)) := by
    rw [numericText]
    split <;> simp [Text.zeroPadded, List.leftpad]
  by_cases negative : n < 0
  · rw [if_pos negative] at text
    rw [signedHundredths, text]
    simp only [List.singleton_append, decimalHundredths_zeroPadded, Option.map_some]
    congr 1
    omega
  · rw [if_neg negative, List.nil_append] at text
    rw [signedHundredths]
    split
    · rename_i cs same
      rw [text] at same
      cases hdigits : Text.zeroPadded 0 (n.natAbs / 100) with
      | nil =>
          rw [hdigits] at same
          cases same
      | cons c digits =>
          rw [hdigits] at same
          obtain ⟨rfl, _⟩ := List.cons.inj same
          exact absurd hdigits not_minus_zeroPadded
    · rw [← String.ofList_toList (s := numericText n), text, decimalHundredths_zeroPadded]
      congr 1
      omega

/-- The two digits of a part of a time. -/
theorem pair_digits : ∀ n < 100, ((toString ((n : Nat) / 10 : Int) ++
    toString ((n : Nat) % 10 : Int)).toList.length = 2 ∧
      decimalDigits (toString ((n : Nat) / 10 : Int) ++ toString ((n : Nat) % 10 : Int)).toList =
        some (n : Int)) := by
  decide +kernel

theorem exists_pair {n : Int} (nonneg : 0 ≤ n) (small : n < 100) : ∃ a b,
    (toString (n / 10) ++ toString (n % 10)).toList = [a, b] ∧
      decimalDigits [a, b] = some n := by
  obtain ⟨n, rfl⟩ := Int.eq_ofNat_of_zero_le nonneg
  obtain ⟨length, value⟩ := pair_digits n (by omega)
  obtain ⟨a, b, text⟩ := List.length_eq_two.mp length
  exact ⟨a, b, text, text ▸ value⟩

theorem epochDayTimestamp_epochDayText {seconds : Int} {text : String}
    (h : epochDayText seconds = some text) :
    epochDayTimestamp text = some (seconds * 1000000) ∧ text.toList.head? = some '1' := by
  unfold epochDayText at h
  split at h
  · rename_i day
    obtain ⟨h₁, h₂, hour, hours⟩ := exists_pair (n := seconds / 3600) (by omega) (by omega)
    obtain ⟨m₁, m₂, minute, minutes⟩ := exists_pair (n := seconds / 60 % 60) (by omega) (by omega)
    obtain ⟨s₁, s₂, second, rest⟩ := exists_pair (n := seconds % 60) (by omega) (by omega)
    have chars : text.toList = "1970-01-01 ".toList ++ [h₁, h₂] ++ [':'] ++ [m₁, m₂] ++ [':'] ++
        [s₁, s₂] := by
      rw [← Option.some.inj h, ← hour, ← minute, ← second]
      simp only [String.toList_append]
      rfl
    refine ⟨?_, by rw [chars]; rfl⟩
    rw [epochDayTimestamp, chars]
    show ((decimalDigits [h₁, h₂]).bind fun h => (decimalDigits [m₁, m₂]).bind fun m =>
        (decimalDigits [s₁, s₂]).map fun s => (3600 * h + 60 * m + s) * 1000000) = _
    rw [hours, minutes, rest]
    simp only [Option.bind_some, Option.map_some]
    congr 2
    omega
  · cases h

theorem documented_ieeeSpark : Documented ieeeSpark id where
  castLong n _ := decimalNumeral_toString n
  castDecimal n _ := signedHundredths_numericText n
  castDouble n _ := by
    refine ⟨roundTo 53 n, ?_, rfl⟩
    show (decimalNumeral (toString n)).map (fun n : Int => roundTo 53 n) = _
    rw [decimalNumeral_toString, Option.map_some]
  divide x n _ same := by
    show roundTo 53 (x / (1000000 : ℤ)) = _
    rw [show x = n from same]
    rfl
  wholeSeconds x _ := by
    show ((epochDayText (truncate x)).or (some ("+" ++ toString (truncate x)))).bind _ = _
    cases h : epochDayText (truncate x) with
    | some text =>
        obtain ⟨value, first⟩ := epochDayTimestamp_epochDayText h
        rw [Option.some_or, Option.bind_some, ieeeSpark]
        show (match text.toList with | '+' :: cs => _ | _ => _) = _
        split
        · rename_i same
          rw [same] at first
          cases first
        · exact value
    | none =>
        rw [Option.none_or, Option.bind_some]
        show (match ("+" ++ toString (truncate x)).toList with | '+' :: cs => _ | _ => _) = _
        rw [String.toList_append]
        show (decimalNumeral (String.ofList (toString (truncate x)).toList)).map (· * 1000000) = _
        rw [String.ofList_toList, decimalNumeral_toString]
        rfl

end PaymentsPlatform.Silver
