import Mathlib

/-!
# Zero-padded decimal numerals

`zeroPadded width n` is what `format(n, "0<width>d")` prints: at least `width`
characters, more when the number needs them. It reads back as the number, so the
numerals of different numbers differ, whatever their lengths.
-/

namespace PaymentsPlatform.Text

variable {width n : Nat} {c : Char}

/-- The decimal digits of a number, with zeros in front up to a width. -/
def zeroPadded (width n : Nat) : List Char := (Nat.toDigits 10 n).leftpad width '0'

theorem ofDigitChars_zeroPadded (width n : Nat) :
    Nat.ofDigitChars 10 (zeroPadded width n) 0 = n := by
  simp [zeroPadded, List.leftpad, Nat.ofDigitChars_append]

theorem zeroPadded_injective (width : Nat) : Function.Injective (zeroPadded width) := by
  intro m n h
  rw [← ofDigitChars_zeroPadded width m, h, ofDigitChars_zeroPadded]

theorem toString_injective : Function.Injective (toString : Nat → String) := by
  intro m n h
  rw [Nat.toString_eq_ofList_toDigits, Nat.toString_eq_ofList_toDigits] at h
  rw [← Nat.ofDigitChars_ten_toDigits (n := m), String.ofList_injective h,
    Nat.ofDigitChars_ten_toDigits]

theorem isDigit_of_mem_zeroPadded (h : c ∈ zeroPadded width n) : c.isDigit = true := by
  rcases List.mem_append.mp h with hzero | hdigit
  · rw [List.eq_of_mem_replicate hzero]
    decide
  · exact Nat.isDigit_of_mem_toDigits (by decide) (by decide) hdigit

/-- A number that fits has exactly the width. -/
theorem length_zeroPadded (hwidth : 0 < width) (fits : n < 10 ^ width) :
    (zeroPadded width n).length = width := by
  have hlen := (Nat.length_toDigits_le_iff (by decide) hwidth).mpr fits
  simp only [zeroPadded, List.leftpad, List.length_append, List.length_replicate]
  omega

/-- Numerals of one width are split off in front of any text. -/
theorem zeroPadded_append_inj {m : Nat} {xs ys : List Char} (hwidth : 0 < width)
    (hm : m < 10 ^ width) (hn : n < 10 ^ width)
    (h : zeroPadded width m ++ xs = zeroPadded width n ++ ys) : m = n ∧ xs = ys := by
  obtain ⟨same, rest⟩ := List.append_inj h
    (by rw [length_zeroPadded hwidth hm, length_zeroPadded hwidth hn])
  exact ⟨zeroPadded_injective width same, rest⟩

end PaymentsPlatform.Text
