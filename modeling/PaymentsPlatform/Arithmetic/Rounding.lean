import Mathlib

/-!
# Rounding to a binary significand

`Representable p` are the numbers with a significand of `p` bits and any exponent, among
them the finite binary floating-point numbers of that precision; `roundTo p` rounds to the
nearest of them, ties to an even significand. `Nearest` says what an argument needs to
know about a rounded number: `Nearest.eq_of_near` and `Nearest.lt_of_far` decide whether
it is rounded up to a given representable one.
-/

namespace PaymentsPlatform.Arithmetic

/-- A significand of `p` bits, scaled by a power of two. -/
def Representable (p : ℕ) (q : ℚ) : Prop := ∃ m e : ℤ, |m| < 2 ^ p ∧ q = m * 2 ^ e

/-- No representable number is closer to `q` than `r`. -/
structure Nearest (p : ℕ) (q r : ℚ) : Prop where
  representable : Representable p r
  closest : ∀ x, Representable p x → |q - r| ≤ |q - x|

/-- The nearest integer, ties to the even one. -/
def halfEven (q : ℚ) : ℤ := if Int.fract q = 1 / 2 ∧ Even ⌊q⌋ then ⌊q⌋ else round q

/-- The distance of the representable numbers of the magnitude of `q`. -/
def spacing (p : ℕ) (q : ℚ) : ℚ := 2 ^ (Int.log 2 |q| + 1 - p)

def roundTo (p : ℕ) (q : ℚ) : ℚ := halfEven (q / spacing p q) * spacing p q

/-- The integer part, as a cast to an integer type takes it. -/
def truncate (q : ℚ) : ℤ := if 0 ≤ q then ⌊q⌋ else ⌈q⌉

variable {p : ℕ} {q r x y : ℚ} {m k : ℤ}

theorem abs_sub_halfEven (q : ℚ) : |q - halfEven q| = |q - round q| := by
  unfold halfEven
  split
  · rename_i tie
    rw [abs_sub_round_eq_min, Int.self_sub_floor, abs_of_nonneg (Int.fract_nonneg q), tie.1]
    norm_num
  · rfl

theorem Representable.neg (h : Representable p x) : Representable p (-x) := by
  obtain ⟨m, e, small, rfl⟩ := h
  exact ⟨-m, e, by rwa [abs_neg], by push_cast; ring⟩

/-- The largest significand may be `2 ^ p` itself. -/
theorem representable_of_le (positive : 0 < p) (small : |m| ≤ 2 ^ p) (e : ℤ) :
    Representable p (m * 2 ^ e) := by
  rcases small.lt_or_eq with small | large
  · exact ⟨m, e, small, rfl⟩
  · have one : |(1 : ℤ)| < 2 ^ p := by
      rw [abs_one]
      exact one_lt_pow₀ one_lt_two positive.ne'
    have shift : ((2 : ℤ) ^ p : ℤ) * (2 : ℚ) ^ e = (1 : ℤ) * 2 ^ (p + e) := by
      rw [zpow_add₀ two_ne_zero]
      push_cast
      rw [zpow_natCast, one_mul]
    rcases abs_choice m with same | opposite
    · rw [← same, large, shift]
      exact ⟨1, p + e, one, rfl⟩
    · rw [← neg_neg m, ← opposite, large, Int.cast_neg, neg_mul, shift]
      exact Representable.neg ⟨1, p + e, one, rfl⟩

/-- Large representable numbers are far apart. -/
theorem Representable.multiple (h : Representable p x) (large : 2 ^ k ≤ |x|) :
    ∃ m : ℤ, x = m * 2 ^ (k + 1 - p) := by
  obtain ⟨m, e, small, rfl⟩ := h
  have bound : |(m : ℚ) * 2 ^ e| < 2 ^ (p + e) := by
    rw [abs_mul, abs_of_pos (zpow_pos two_pos e : (0 : ℚ) < 2 ^ e), zpow_add₀ two_ne_zero,
      zpow_natCast]
    have : |(m : ℚ)| < 2 ^ p := by exact_mod_cast small
    exact mul_lt_mul_of_pos_right this (zpow_pos two_pos e)
  have exponent : k < p + e := (zpow_lt_zpow_iff_right₀ one_lt_two).mp (large.trans_lt bound)
  obtain ⟨n, hn⟩ := Int.eq_ofNat_of_zero_le (show 0 ≤ e - (k + 1 - p) by omega)
  refine ⟨m * 2 ^ n, ?_⟩
  have split : e = n + (k + 1 - p) := by omega
  rw [split, zpow_add₀ two_ne_zero, zpow_natCast]
  push_cast
  ring

namespace Nearest

theorem neg (h : Nearest p q r) : Nearest p (-q) (-r) where
  representable := h.representable.neg
  closest x hx := by
    have := h.closest (-x) hx.neg
    rwa [neg_sub_neg, abs_sub_comm, ← abs_neg (-q - x), neg_sub, sub_neg_eq_add, add_comm,
      ← sub_neg_eq_add]

theorem eq_self (h : Nearest p q r) (hq : Representable p q) : r = q := by
  have := h.closest q hq
  rw [sub_self, abs_zero] at this
  exact (sub_eq_zero.mp (abs_nonpos_iff.mp this)).symm

/-- Rounding does not pass a representable number. -/
theorem le (h : Nearest p q r) (hx : Representable p x) (below : x ≤ q) : x ≤ r := by
  by_contra passed
  have := h.closest x hx
  rw [abs_of_nonneg (by linarith), abs_of_nonneg (by linarith)] at this
  linarith

theorem ge (h : Nearest p q r) (hx : Representable p x) (above : q ≤ x) : r ≤ x :=
  neg_le_neg_iff.mp (h.neg.le hx.neg (neg_le_neg above))

end Nearest

/-- The representable numbers from `2 ^ k` on are the multiples of a power of two, and
`2 ^ k` is one. -/
theorem two_zpow_eq_mul_step (positive : 0 < p) (k : ℤ) :
    (2 : ℚ) ^ k = ((2 : ℤ) ^ (p - 1) : ℤ) * 2 ^ (k + 1 - p) := by
  push_cast
  rw [← zpow_natCast, ← zpow_add₀ two_ne_zero]
  congr 1
  omega

theorem step_eq_two_mul (p : ℕ) (k : ℤ) : (2 : ℚ) ^ (k + 1 - p) = 2 * 2 ^ (k - p) := by
  rw [show k + 1 - p = 1 + (k - p) by ring, zpow_add₀ two_ne_zero, zpow_one]

/-- Above `2 ^ k` there is room for one more step down. -/
theorem Representable.pow_le_sub_step (hy : Representable p y) (positive : 0 < p)
    (lower : 2 ^ k < y) : 2 ^ k ≤ y - 2 ^ (k + 1 - p) := by
  obtain ⟨n, rfl⟩ := hy.multiple (lower.le.trans (le_abs_self y))
  have step : (0 : ℚ) < 2 ^ (k + 1 - p) := zpow_pos two_pos _
  rw [two_zpow_eq_mul_step positive k] at lower ⊢
  have more : (2 : ℤ) ^ (p - 1) + 1 ≤ n := by
    exact_mod_cast lt_of_mul_lt_mul_right lower step.le
  have scaled : (((2 : ℤ) ^ (p - 1) + 1 : ℤ) : ℚ) * 2 ^ (k + 1 - p) ≤ n * 2 ^ (k + 1 - p) :=
    mul_le_mul_of_nonneg_right (by exact_mod_cast more) step.le
  rw [Int.cast_add, Int.cast_one, add_mul, one_mul] at scaled
  linarith

theorem Representable.sub_step (hy : Representable p y) (positive : 0 < p) (lower : 2 ^ k < y)
    (upper : y ≤ 2 ^ (k + 1)) : Representable p (y - 2 ^ (k + 1 - p)) := by
  obtain ⟨n, rfl⟩ := hy.multiple (lower.le.trans (le_abs_self y))
  have step : (0 : ℚ) < 2 ^ (k + 1 - p) := zpow_pos two_pos _
  have most : n ≤ 2 ^ p := by
    have whole : (2 : ℚ) ^ (k + 1) = ((2 ^ p : ℤ) : ℚ) * 2 ^ (k + 1 - p) := by
      push_cast
      rw [← zpow_natCast, ← zpow_add₀ two_ne_zero]
      congr 1
      ring
    rw [whole] at upper
    exact_mod_cast le_of_mul_le_mul_right upper step
  have least : 0 < n := by
    have above : (0 : ℚ) < n * 2 ^ (k + 1 - p) := (zpow_pos two_pos k).trans lower
    exact_mod_cast pos_of_mul_pos_left above step.le
  have previous : (n : ℚ) * 2 ^ (k + 1 - p) - 2 ^ (k + 1 - p) = (n - 1 : ℤ) * 2 ^ (k + 1 - p) := by
    push_cast
    ring
  rw [previous]
  exact representable_of_le positive (by rw [abs_of_nonneg (by omega)]; omega) _

/-- Two representable numbers from `2 ^ k` on that differ are a step apart. -/
theorem Representable.add_step_le (hx : Representable p x) (hy : Representable p y)
    (lower : 2 ^ k ≤ x) (less : x < y) : x + 2 ^ (k + 1 - p) ≤ y := by
  obtain ⟨m, rfl⟩ := hx.multiple (lower.trans (le_abs_self x))
  obtain ⟨n, rfl⟩ := hy.multiple ((lower.trans less.le).trans (le_abs_self y))
  have step : (0 : ℚ) < 2 ^ (k + 1 - p) := zpow_pos two_pos _
  have more : m + 1 ≤ n := by exact_mod_cast lt_of_mul_lt_mul_right less step.le
  have scaled : ((m + 1 : ℤ) : ℚ) * 2 ^ (k + 1 - p) ≤ n * 2 ^ (k + 1 - p) :=
    mul_le_mul_of_nonneg_right (by exact_mod_cast more) step.le
  rw [Int.cast_add, Int.cast_one, add_mul, one_mul] at scaled
  exact scaled

namespace Nearest

/-- Less than half a step below `y`, a number is rounded up to it. -/
theorem eq_of_near (h : Nearest p q r) (hy : Representable p y) (positive : 0 < p)
    (lower : 2 ^ k < y) (above : q < y) (near : y - q < 2 ^ (k - p)) : r = y := by
  by_contra different
  have less : r < y := lt_of_le_of_ne (h.ge hy above.le) different
  have room := hy.pow_le_sub_step positive lower
  have closer := h.closest y hy
  rw [abs_sub_comm q y, abs_of_pos (sub_pos.mpr above)] at closer
  have error := (le_abs_self _).trans closer
  rw [step_eq_two_mul] at room
  have apart := h.representable.add_step_le hy (k := k) (by linarith) less
  rw [step_eq_two_mul] at apart
  linarith

/-- More than half a step below `y`, it is not. -/
theorem lt_of_far (h : Nearest p q r) (hy : Representable p y) (positive : 0 < p)
    (lower : 2 ^ k < y) (upper : y ≤ 2 ^ (k + 1)) (far : 2 ^ (k - p) < y - q) : r < y := by
  have step : (0 : ℚ) < 2 ^ (k - p) := zpow_pos two_pos _
  have previous := hy.sub_step positive lower upper
  rcases le_total (y - 2 ^ (k + 1 - p)) q with between | below
  · have closer := h.closest _ previous
    rw [abs_of_nonneg (sub_nonneg.mpr between), step_eq_two_mul] at closer
    have error := (neg_abs_le _).trans' (neg_le_neg closer)
    linarith
  · have := h.ge previous below
    rw [step_eq_two_mul] at this
    linarith

end Nearest

theorem abs_halfEven_le {z : ℚ} {bound : ℤ} (h : |z| ≤ bound) : |halfEven z| ≤ bound := by
  obtain ⟨lower, upper⟩ := abs_le.mp h
  have closer : ∀ m : ℤ, |z - halfEven z| ≤ |z - m| := fun m => by
    rw [abs_sub_halfEven]
    exact round_le z m
  refine abs_le.mpr ⟨?_, ?_⟩
  · by_contra less
    have least : (halfEven z : ℚ) + 1 ≤ -bound := by exact_mod_cast not_le.mp less
    have := closer (-bound)
    rw [Int.cast_neg, abs_of_nonneg (by linarith), abs_of_nonneg (by linarith)] at this
    linarith
  · by_contra more
    have most : (bound : ℚ) + 1 ≤ halfEven z := by exact_mod_cast not_le.mp more
    have := closer bound
    rw [abs_of_nonpos (by linarith), abs_of_nonpos (by linarith)] at this
    linarith

theorem spacing_pos (p : ℕ) (q : ℚ) : 0 < spacing p q := zpow_pos two_pos _

theorem abs_sub_mul_spacing (p : ℕ) (q : ℚ) (m : ℤ) :
    |q - m * spacing p q| = |q / spacing p q - m| * spacing p q := by
  have unit := spacing_pos p q
  calc |q - m * spacing p q| = |(q / spacing p q - m) * spacing p q| := by
        rw [sub_mul, div_mul_cancel₀ _ unit.ne']
    _ = |q / spacing p q - m| * spacing p q := by rw [abs_mul, abs_of_pos unit]

/-- No multiple of the spacing is closer. -/
theorem abs_sub_roundTo_le (p : ℕ) (q : ℚ) (m : ℤ) :
    |q - roundTo p q| ≤ |q - m * spacing p q| := by
  have unit := spacing_pos p q
  rw [roundTo, abs_sub_mul_spacing, abs_sub_mul_spacing, abs_sub_halfEven]
  exact mul_le_mul_of_nonneg_right (round_le _ m) unit.le

theorem abs_sub_roundTo_le_half (p : ℕ) (q : ℚ) : |q - roundTo p q| ≤ spacing p q / 2 := by
  have unit := spacing_pos p q
  refine (abs_sub_roundTo_le p q (round (q / spacing p q))).trans ?_
  rw [abs_sub_mul_spacing]
  have := mul_le_mul_of_nonneg_right (abs_sub_round (q / spacing p q)) unit.le
  linarith

theorem abs_sub_roundTo_le_of_small (positive : 0 < p) (nonzero : q ≠ 0)
    (small : |x| < 2 ^ Int.log 2 |q|) : |q - roundTo p q| ≤ |q - x| := by
  have lower : (2 : ℚ) ^ Int.log 2 |q| ≤ |q| :=
    Int.zpow_log_le_self one_lt_two (abs_pos.mpr nonzero)
  have power := two_zpow_eq_mul_step positive (Int.log 2 |q|)
  obtain ⟨least, most⟩ := abs_lt.mp small
  rcases le_total 0 q with nonneg | nonpos
  · refine (abs_sub_roundTo_le p q (2 ^ (p - 1))).trans ?_
    rw [spacing, ← power]
    rw [abs_of_nonneg nonneg] at lower least most ⊢
    rw [abs_of_nonneg (by linarith), abs_of_nonneg (by linarith)]
    linarith
  · refine (abs_sub_roundTo_le p q (-2 ^ (p - 1))).trans ?_
    rw [spacing, Int.cast_neg, neg_mul, ← power]
    rw [abs_of_nonpos nonpos] at lower least most ⊢
    rw [abs_of_nonpos (by linarith), abs_of_nonpos (by linarith)]
    linarith

theorem representable_roundTo (positive : 0 < p) (q : ℚ) : Representable p (roundTo p q) := by
  have upper : |q| < (2 : ℚ) ^ (Int.log 2 |q| + 1) := Int.lt_zpow_succ_log_self one_lt_two _
  have unit := spacing_pos p q
  refine representable_of_le positive (abs_halfEven_le ?_) _
  rw [abs_div, abs_of_pos unit, div_le_iff₀ unit]
  refine upper.le.trans (le_of_eq ?_)
  rw [spacing]
  push_cast
  rw [← zpow_natCast, ← zpow_add₀ two_ne_zero]
  congr 1
  ring

@[simp] theorem roundTo_zero (p : ℕ) : roundTo p 0 = 0 := by
  simp [roundTo, halfEven]

/-- Rounding gives a nearest representable number. -/
theorem nearest_roundTo (positive : 0 < p) (q : ℚ) : Nearest p q (roundTo p q) := by
  refine ⟨representable_roundTo positive q, fun x hx => ?_⟩
  by_cases zero : q = 0
  · simp [zero]
  · by_cases large : 2 ^ Int.log 2 |q| ≤ |x|
    · obtain ⟨m, rfl⟩ := hx.multiple large
      exact abs_sub_roundTo_le p q m
    · exact abs_sub_roundTo_le_of_small positive zero (not_le.mp large)

theorem roundTo_of_representable (positive : 0 < p) (hq : Representable p q) :
    roundTo p q = q := (nearest_roundTo positive q).eq_self hq

theorem representable_intCast (positive : 0 < p) (small : |m| ≤ 2 ^ p) : Representable p m := by
  have := representable_of_le positive small 0
  rwa [zpow_zero, mul_one] at this

/-- An integer is rounded to an integer. -/
theorem exists_roundTo_intCast (positive : 0 < p) (n : ℤ) : ∃ m : ℤ, roundTo p n = m := by
  by_cases small : |n| ≤ 2 ^ p
  · exact ⟨n, roundTo_of_representable positive (representable_intCast positive small)⟩
  · have large : (2 : ℚ) ^ (p : ℤ) ≤ |(n : ℚ)| := by
      rw [zpow_natCast]
      exact_mod_cast (not_le.mp small).le
    have exponent := (Int.zpow_le_iff_le_log one_lt_two ((zpow_pos two_pos _).trans_le large)).mp
      large
    obtain ⟨e, he⟩ := Int.eq_ofNat_of_zero_le (show 0 ≤ Int.log 2 |(n : ℚ)| + 1 - p by omega)
    refine ⟨halfEven (n / spacing p n) * 2 ^ e, ?_⟩
    rw [roundTo]
    nth_rewrite 2 [spacing]
    rw [he, zpow_natCast]
    push_cast
    rfl

theorem truncate_of_nonneg (h : 0 ≤ q) : truncate q = ⌊q⌋ := if_pos h

theorem truncate_neg (q : ℚ) : truncate (-q) = -truncate q := by
  unfold truncate
  rcases lt_trichotomy q 0 with negative | rfl | positive
  · rw [if_pos (by linarith), if_neg (not_le.mpr negative), Int.floor_neg]
  · simp
  · rw [if_neg (by linarith), if_pos positive.le, Int.ceil_neg]

theorem truncate_lt (positive : 0 < m) (below : q < m) : truncate q < m := by
  unfold truncate
  split
  · exact Int.floor_lt.mpr below
  · rename_i negative
    exact (Int.ceil_le.mpr (by push_cast; linarith)).trans_lt positive

end PaymentsPlatform.Arithmetic
