import Mathlib

/-!
# Base64 with the URL-safe alphabet

Python's `base64.urlsafe_b64encode` and `urlsafe_b64decode`. Decoding reads both
alphabets and passes over every other character; it stops at the padding that completes a
quad, whatever follows. It fails on a quad that is left incomplete.
-/

namespace PaymentsPlatform.Base64

/-- The character of a value below 64. -/
def digit (n : Nat) : Char :=
  if n < 26 then Char.ofNat ('A'.toNat + n)
  else if n < 52 then Char.ofNat ('a'.toNat + (n - 26))
  else if n < 62 then Char.ofNat ('0'.toNat + (n - 52))
  else if n = 62 then '-' else '_'

/-- The value of a character of either alphabet. -/
def value (c : Char) : Option Nat :=
  if 'A' ≤ c ∧ c ≤ 'Z' then some (c.toNat - 'A'.toNat)
  else if 'a' ≤ c ∧ c ≤ 'z' then some (c.toNat - 'a'.toNat + 26)
  else if '0' ≤ c ∧ c ≤ '9' then some (c.toNat - '0'.toNat + 52)
  else if c ∈ ['-', '+'] then some 62
  else if c ∈ ['_', '/'] then some 63
  else none

/-- The URL-safe text of bytes, padded. -/
def encode : List UInt8 → List Char
  | [] => []
  | [a] => [digit (a.toNat / 4), digit (a.toNat % 4 * 16), '=', '=']
  | [a, b] =>
      [digit (a.toNat / 4), digit (a.toNat % 4 * 16 + b.toNat / 16), digit (b.toNat % 16 * 4), '=']
  | a :: b :: c :: rest =>
      digit (a.toNat / 4) :: digit (a.toNat % 4 * 16 + b.toNat / 16) ::
        digit (b.toNat % 16 * 4 + c.toNat / 64) :: digit (c.toNat % 64) :: encode rest

/-- The bits of the quad that is being read. -/
inductive Quad where
  | empty
  | one (left : Nat)
  | two (left : Nat)
  | three (left : Nat)

/-- One more character of the alphabet. -/
def Quad.push (v : Nat) : Quad → Quad × List UInt8
  | .empty => (.one v, [])
  | .one left => (.two (v % 16), [UInt8.ofNat (left * 4 + v / 16)])
  | .two left => (.three (v % 4), [UInt8.ofNat (left * 16 + v / 4)])
  | .three left => (.empty, [UInt8.ofNat (left * 64 + v)])

/-- Whether the padding behind `pads` others completes the quad. -/
def Quad.completedBy (pads : Nat) : Quad → Bool
  | .two _ => 1 ≤ pads
  | .three _ => true
  | _ => false

/-- Padding in front of the third character does not count. -/
def Quad.pad (pads : Nat) : Quad → Nat
  | .two _ => pads + 1
  | .three _ => pads + 1
  | _ => pads

/-- The loop of `binascii.a2b_base64`. -/
def decodeFrom (quad : Quad) (pads : Nat) (bytes : List UInt8) : List Char → Option (List UInt8)
  | [] =>
      match quad with
      | .empty => some bytes
      | _ => none
  | c :: rest =>
      if c = '=' then
        if quad.completedBy pads then some bytes else decodeFrom quad (quad.pad pads) bytes rest
      else
        match value c with
        | none => decodeFrom quad pads bytes rest
        | some v => decodeFrom (quad.push v).1 0 (bytes ++ (quad.push v).2) rest

/-- The bytes of a text; what is not in the alphabet is passed over. -/
def decode (text : List Char) : Option (List UInt8) := decodeFrom .empty 0 [] text

variable {quad : Quad} {pads n : Nat} {bytes : List UInt8} {rest : List Char}

theorem value_digit (h : n < 64) : digit n ≠ '=' ∧ value (digit n) = some n := by
  have all : ∀ n : Fin 64, digit n ≠ '=' ∧ value (digit n) = some n.val := by decide
  exact all ⟨n, h⟩

@[simp] theorem decodeFrom_digit (h : n < 64) :
    decodeFrom quad pads bytes (digit n :: rest) =
      decodeFrom (quad.push n).1 0 (bytes ++ (quad.push n).2) rest := by
  obtain ⟨noPad, hvalue⟩ := value_digit h
  rw [decodeFrom, if_neg noPad, hvalue]

private theorem byte_eq {a : UInt8} (h : n = a.toNat) : UInt8.ofNat n = a := by
  rw [h, UInt8.ofNat_toNat]

private theorem decodeFrom_encode (raw : List UInt8) :
    decodeFrom .empty 0 bytes (encode raw) = some (bytes ++ raw) := by
  induction raw using encode.induct generalizing bytes with
  | case1 => simp [encode, decodeFrom]
  | case2 a =>
      have ha := a.toNat_lt
      rw [encode, decodeFrom_digit (by omega), decodeFrom_digit (by omega)]
      simp only [Quad.push, List.append_nil]
      rw [byte_eq (a := a) (by omega)]
      rfl
  | case3 a b =>
      have ha := a.toNat_lt
      have hb := b.toNat_lt
      rw [encode, decodeFrom_digit (by omega), decodeFrom_digit (by omega),
        decodeFrom_digit (by omega)]
      simp only [Quad.push, List.append_nil]
      rw [byte_eq (a := a) (by omega), byte_eq (a := b) (by omega), List.append_assoc]
      rfl
  | case4 a b c rest ih =>
      have ha := a.toNat_lt
      have hb := b.toNat_lt
      have hc := c.toNat_lt
      rw [encode, decodeFrom_digit (by omega), decodeFrom_digit (by omega),
        decodeFrom_digit (by omega), decodeFrom_digit (by omega)]
      simp only [Quad.push, List.append_nil]
      rw [byte_eq (a := a) (by omega), byte_eq (a := b) (by omega), byte_eq (a := c) (by omega), ih,
        List.append_assoc, List.append_assoc, List.append_assoc]
      rfl

/-- Decoding inverts encoding. -/
theorem decode_encode (raw : List UInt8) : decode (encode raw) = some raw :=
  decodeFrom_encode raw

/-- An encoded text has digits and padding. -/
theorem mem_encode {raw : List UInt8} {c : Char} (hc : c ∈ encode raw) :
    c = '=' ∨ ∃ n < 64, c = digit n := by
  induction raw using encode.induct with
  | case1 => cases hc
  | case2 a =>
      have ha := a.toNat_lt
      simp only [encode, List.mem_cons, List.not_mem_nil, or_false] at hc
      rcases hc with rfl | rfl | rfl | rfl
      · exact .inr ⟨_, by omega, rfl⟩
      · exact .inr ⟨_, by omega, rfl⟩
      · exact .inl rfl
      · exact .inl rfl
  | case3 a b =>
      have ha := a.toNat_lt
      have hb := b.toNat_lt
      simp only [encode, List.mem_cons, List.not_mem_nil, or_false] at hc
      rcases hc with rfl | rfl | rfl | rfl
      · exact .inr ⟨_, by omega, rfl⟩
      · exact .inr ⟨_, by omega, rfl⟩
      · exact .inr ⟨_, by omega, rfl⟩
      · exact .inl rfl
  | case4 a b c rest ih =>
      have ha := a.toNat_lt
      have hb := b.toNat_lt
      have hc' := c.toNat_lt
      simp only [encode, List.mem_cons] at hc
      rcases hc with rfl | rfl | rfl | rfl | hc
      · exact .inr ⟨_, by omega, rfl⟩
      · exact .inr ⟨_, by omega, rfl⟩
      · exact .inr ⟨_, by omega, rfl⟩
      · exact .inr ⟨_, by omega, rfl⟩
      · exact ih hc

/-- Its characters are in ASCII. -/
theorem ascii_encode {raw : List UInt8} {c : Char} (hc : c ∈ encode raw) : c.toNat < 128 := by
  have all : ∀ n : Fin 64, (digit n).toNat < 128 := by decide
  rcases mem_encode hc with rfl | ⟨n, hn, rfl⟩
  · decide
  · exact all ⟨n, hn⟩

/-- A character of the URL-safe alphabet, or padding. -/
def UrlSafe (c : Char) : Prop := c.isAlphanum = true ∨ c = '-' ∨ c = '_' ∨ c = '='

instance (c : Char) : Decidable (UrlSafe c) := inferInstanceAs (Decidable (_ ∨ _))

theorem urlSafe_encode {raw : List UInt8} {c : Char} (hc : c ∈ encode raw) : UrlSafe c := by
  have all : ∀ n : Fin 64, UrlSafe (digit n) := by decide
  rcases mem_encode hc with rfl | ⟨n, hn, rfl⟩
  · decide
  · exact all ⟨n, hn⟩

end PaymentsPlatform.Base64
