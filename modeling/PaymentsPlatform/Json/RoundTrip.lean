import PaymentsPlatform.Json.Loads

/-!
# Reading back what was written

A value is `Readable` when `json.loads` makes it of its `json.dumps` again: no float is in
it, no integer is too long, the keys of an object differ, and no string or key has a high
surrogate in front of a low one, which would come back as one code point. The machine reads
a value behind any containers (`Readable.reads`), by induction on the value; `loads_dumps`
is the case without any.
-/

namespace PaymentsPlatform

namespace Json

open CodePoint (ofChar)

/-- The machine gets from one state to another by reading some characters. -/
def Reads (float : List Char → PyFloat) (s : Scanner) (text : List Char) (t : Scanner) : Prop :=
  scan float s (text.map ofChar) = .ok t

variable {float : List Char → PyFloat} {s t u : Scanner} {c : Char} {xs ys : List Char}
variable {stack : List Frame} {members : Option Members} {str : PyStr} {n : Nat}

theorem Reads.nil : Reads float s [] s := rfl

theorem Reads.append (first : Reads float s xs t) (second : Reads float t ys u) :
    Reads float s (xs ++ ys) u := by
  unfold Reads scan at *
  rw [List.map_append, List.foldlM_append, first]
  exact second

theorem Reads.cons (first : step float s (ofChar c) = .ok t) (rest : Reads float t xs u) :
    Reads float s (c :: xs) u := by
  unfold Reads scan at *
  rw [List.map_cons, List.foldlM_cons, first]
  exact rest

theorem Reads.single (h : step float s (ofChar c) = .ok t) : Reads float s [c] t := .cons h .nil

def IsHigh (c : CodePoint) : Prop := 0xD800 ≤ c.val ∧ c.val < 0xDC00

def IsLow (c : CodePoint) : Prop := 0xDC00 ≤ c.val ∧ c.val < 0xE000

instance IsHigh.decidable (c : CodePoint) : Decidable (IsHigh c) :=
  inferInstanceAs (Decidable (_ ∧ _))

instance IsLow.decidable (c : CodePoint) : Decidable (IsLow c) :=
  inferInstanceAs (Decidable (_ ∧ _))

/-- Strings without a high surrogate directly in front of a low one. -/
def Unjoined (s : PyStr) : Prop := s.IsChain fun c d => ¬(IsHigh c ∧ IsLow d)

instance Unjoined.decidable (s : PyStr) : Decidable (Unjoined s) :=
  inferInstanceAs (Decidable (List.IsChain _ _))

/-- Code points that a text in UTF-8 can have. -/
def Scalar (s : PyStr) : Prop := ∀ c ∈ s, c.isSurrogate = false

theorem scalar_pyStr (s : String) : Scalar (pyStr s) := fun _ => CodePoint.isSurrogate_of_mem

theorem ascii_ofChar (h : c.toNat < 128) : ascii (ofChar c) = c := by
  rw [ascii, CodePoint.val_ofChar, if_pos h, Char.ofNat_toNat]

theorem hexValue_digitChar {d : Nat} (h : d < 16) :
    (Nat.digitChar d).toNat < 128 ∧ hexValue (Nat.digitChar d) = some d := by
  have all : ∀ d : Fin 16, (Nat.digitChar d).toNat < 128 ∧
      hexValue (Nat.digitChar d) = some d.val := by decide
  exact all ⟨d, h⟩

/-- One more hexadecimal digit, of four. -/
private theorem step_hex {high : Option Nat} {count value d : Nat} (h : d < 16) :
    step float ⟨.string members str (.hex high count value), stack⟩ (ofChar (Nat.digitChar d)) =
      if count < 3 then .ok ⟨.string members str (.hex high (count + 1) (value * 16 + d)), stack⟩
      else .ok ⟨.string members (pushUnicode str high (value * 16 + d)).1
        (pushUnicode str high (value * 16 + d)).2, stack⟩ := by
  obtain ⟨small, hvalue⟩ := hexValue_digitChar h
  simp only [step, stepString, ascii_ofChar small, hvalue]

theorem reads_unicodeEscape (float : List Char → PyFloat) (members : Option Members) (str : PyStr)
    (stack : List Frame) (high : Option Nat) (hn : n < 0x10000) :
    Reads float ⟨.string members str (.plain high), stack⟩ (unicodeEscape n)
      ⟨.string members (pushUnicode str high n).1 (pushUnicode str high n).2, stack⟩ := by
  have whole : (((0 * 16 + n / 4096 % 16) * 16 + n / 256 % 16) * 16 + n / 16 % 16) * 16 + n % 16 =
      n := by omega
  refine .cons (t := ⟨.string members str (.escape high), stack⟩) rfl ?_
  refine .cons (t := ⟨.string members str (.hex high 0 0), stack⟩) rfl ?_
  refine .cons (step_hex (Nat.mod_lt _ (by decide))) ?_
  refine .cons (step_hex (Nat.mod_lt _ (by decide))) ?_
  refine .cons (step_hex (Nat.mod_lt _ (by decide))) ?_
  refine .single ((step_hex (Nat.mod_lt _ (by decide))).trans ?_)
  rw [if_neg (by decide), whole]

private theorem unescape_shortEscape {letter : Char} (h : shortEscape n = some letter) :
    letter.toNat < 128 ∧ letter ≠ 'u' ∧ unescape letter = some (Fin.ofNat 0x110000 n) := by
  unfold shortEscape at h
  split at h <;> cases h
  all_goals decide

/-- Anything else but a low surrogate behind a high one stands for itself. -/
theorem pushUnicode_apart {high : Option Nat}
    (apart : ∀ h ∈ high, ¬(0xDC00 ≤ n ∧ n < 0xE000)) : pushUnicode str high n =
      (str ++ [Fin.ofNat 0x110000 n],
        .plain (if 0xD800 ≤ n ∧ n < 0xDC00 then some n else none)) := by
  cases high with
  | none => rfl
  | some h => rw [pushUnicode, Option.filter_some, if_neg (by simpa using apart h rfl)]

/-- A low surrogate completes the high one before it. -/
theorem pushUnicode_low {high : Nat} (c : CodePoint) (h : 0xDC00 ≤ n ∧ n < 0xE000) :
    pushUnicode (str ++ [c]) (some high) n =
      (str ++ [Fin.ofNat 0x110000 (0x10000 + (high - 0xD800) * 0x400 + (n - 0xDC00))],
        .plain none) := by
  rw [pushUnicode, Option.filter_some, if_pos (decide_eq_true h)]
  simp only [List.dropLast_concat]

/-- The high surrogate that waits behind a code point. -/
def waiting (c : CodePoint) : Option Nat :=
  if IsHigh c then some c.val else none

theorem waiting_eq_none {c : CodePoint} (h : c.val < 0xD800 ∨ 0xDC00 ≤ c.val) :
    waiting c = none := if_neg fun high => by
  obtain ⟨_, _⟩ := high
  omega

theorem ofNat_val (c : CodePoint) : Fin.ofNat 0x110000 c.val = c :=
  Fin.ext (Nat.mod_eq_of_lt c.isLt)

/-- A code point with an escape of one letter, -/
theorem reads_shortEscape {c : CodePoint} {high : Option Nat} {letter : Char}
    (hshort : shortEscape c.val = some letter) :
    Reads float ⟨.string members str (.plain high), stack⟩ ['\\', letter]
      ⟨.string members (str ++ [c]) (.plain (waiting c)), stack⟩ := by
  obtain ⟨small, notU, hletter⟩ := unescape_shortEscape hshort
  have low : waiting c = none := by
    refine waiting_eq_none (.inl ?_)
    unfold shortEscape at hshort
    split at hshort
    all_goals first | omega | cases hshort
  have other : ofChar letter ≠ ofChar 'u' := fun h => notU (CodePoint.ofChar_injective h)
  refine .cons (t := ⟨.string members str (.escape high), stack⟩) rfl (.single ?_)
  simp only [step, stepString, if_neg other, ascii_ofChar small, hletter, ofNat_val, low]

/-- one that stands for itself, -/
theorem reads_plain {c : CodePoint} {high : Option Nat} (hshort : shortEscape c.val = none)
    (printable : 0x20 ≤ c.val ∧ c.val ≤ 0x7E) :
    Reads float ⟨.string members str (.plain high), stack⟩ [Char.ofNat c.val]
      ⟨.string members (str ++ [c]) (.plain (waiting c)), stack⟩ := by
  have hc : ofChar (Char.ofNat c.val) = c := by
    refine Fin.ext ?_
    rw [CodePoint.val_ofChar, Char.toNat_ofNat, if_pos (.inl (by omega))]
  have quote : c ≠ ofChar '"' := by rintro rfl; cases hshort
  have backslash : c ≠ ofChar '\\' := by rintro rfl; cases hshort
  have low : waiting c = none := waiting_eq_none (.inl (by omega))
  refine .single ?_
  rw [hc, low]
  simp only [step, stepString, if_neg quote, if_neg backslash]
  rw [if_neg (by omega)]

/-- and one with two escapes. -/
theorem reads_astral {c : CodePoint} {high : Option Nat} (astral : 0x10000 ≤ c.val) :
    Reads float ⟨.string members str (.plain high), stack⟩
      (unicodeEscape (0xD800 + (c.val - 0x10000) / 0x400) ++
        unicodeEscape (0xDC00 + (c.val - 0x10000) % 0x400))
      ⟨.string members (str ++ [c]) (.plain (waiting c)), stack⟩ := by
  have hlt := c.isLt
  have joined : 0x10000 + (0xD800 + (c.val - 0x10000) / 0x400 - 0xD800) * 0x400 +
      (0xDC00 + (c.val - 0x10000) % 0x400 - 0xDC00) = c.val := by omega
  have low : waiting c = none := waiting_eq_none (.inr (by omega))
  have first := reads_unicodeEscape float members str stack high
    (by omega : 0xD800 + (c.val - 0x10000) / 0x400 < 0x10000)
  rw [pushUnicode_apart (by omega), if_pos (by omega)] at first
  have second := reads_unicodeEscape float members
    (str ++ [Fin.ofNat 0x110000 (0xD800 + (c.val - 0x10000) / 0x400)]) stack
    (some (0xD800 + (c.val - 0x10000) / 0x400))
    (by omega : 0xDC00 + (c.val - 0x10000) % 0x400 < 0x10000)
  rw [pushUnicode_low _ (by omega), joined, ofNat_val] at second
  rw [low]
  exact first.append second

/-- A code point is read back from its escape, but a low surrogate behind a high one. -/
theorem reads_escapeChar {c : CodePoint} {high : Option Nat}
    (apart : ∀ h ∈ high, ¬IsLow c) :
    Reads float ⟨.string members str (.plain high), stack⟩ (escapeChar c)
      ⟨.string members (str ++ [c]) (.plain (waiting c)), stack⟩ := by
  unfold escapeChar
  split
  · rename_i letter hshort
    exact reads_shortEscape hshort
  · rename_i hshort
    split
    · rename_i printable
      exact reads_plain hshort printable
    · split
      · rename_i bmp
        have h := reads_unicodeEscape float members str stack high bmp
        rw [pushUnicode_apart apart, ofNat_val] at h
        exact h
      · rename_i astral
        exact reads_astral (Nat.le_of_not_lt astral)

theorem Scalar.unjoined {s : PyStr} (scalar : Scalar s) : Unjoined s := by
  have low : ∀ c ∈ s, ¬IsHigh c := by
    rintro c hc ⟨_, _⟩
    have := scalar c hc
    rw [CodePoint.isSurrogate, decide_eq_false_iff_not] at this
    omega
  exact List.Pairwise.isChain (List.pairwise_of_forall_mem_list
    fun c hc d _ (joined : IsHigh c ∧ IsLow d) => low c hc joined.1)

/-- So is a string, if its high surrogates are not in front of low ones. -/
theorem reads_escape (unjoined : Unjoined str) (s : PyStr) {high : Option Nat}
    (apart : ∀ h ∈ high, ∀ c ∈ str.head?, ¬IsLow c) :
    ∃ high', Reads float ⟨.string members s (.plain high), stack⟩ (escape str)
      ⟨.string members (s ++ str) (.plain high'), stack⟩ := by
  induction str generalizing s high with
  | nil =>
      rw [List.append_nil]
      exact ⟨high, .nil⟩
  | cons c str ih =>
      have first : Reads float ⟨.string members s (.plain high), stack⟩ (escapeChar c)
          ⟨.string members (s ++ [c]) (.plain (waiting c)), stack⟩ :=
        reads_escapeChar fun h hh => apart h hh c rfl
      have next : ∀ h ∈ waiting c, ∀ d ∈ str.head?, ¬IsLow d := by
        intro h hh d hd hlow
        obtain ⟨high, _⟩ := Option.ite_none_right_eq_some.mp hh
        cases str with
        | nil => cases hd
        | cons e str =>
            obtain rfl := Option.some.inj hd
            exact (List.isChain_cons_cons.mp unjoined).1 ⟨high, hlow⟩
      obtain ⟨high', rest⟩ := ih unjoined.tail (s ++ [c]) next
      rw [List.append_assoc] at rest
      exact ⟨high', first.append rest⟩

/-- A string is read back from its text, as a value -/
theorem reads_value (unjoined : Unjoined str) :
    Reads float ⟨.value, stack⟩ (quote str) ⟨.after (.string str), stack⟩ := by
  obtain ⟨high, read⟩ : ∃ high, Reads float ⟨.string none [] (.plain none), stack⟩ (escape str)
      ⟨.string none ([] ++ str) (.plain high), stack⟩ := reads_escape unjoined [] (by simp)
  exact .cons (t := ⟨.string none [] (.plain none), stack⟩) rfl (read.append (.single rfl))

/-- and as a key. -/
theorem reads_key {members : Members} (starts : step float s (ofChar '"') =
      .ok ⟨.string (some members) [] (.plain none), stack⟩) (unjoined : Unjoined str) :
    Reads float s (quote str) ⟨.colon members str, stack⟩ := by
  obtain ⟨high, read⟩ : ∃ high, Reads float ⟨.string (some members) [] (.plain none), stack⟩
      (escape str) ⟨.string (some members) ([] ++ str) (.plain high), stack⟩ :=
    reads_escape unjoined [] (by simp)
  exact .cons starts (read.append (.single rfl))

/-- The machine has read a value, or a number that may go no further. -/
inductive Ends (float : List Char → PyFloat) (v : Json) (stack : List Frame) : Scanner → Prop
  | after : Ends float v stack ⟨.after v, stack⟩
  | number (text : List Char) (position : NumberPosition)
      (value : numberValue float text position = .ok v) (sign : text ≠ ['-'])
      (closed : ∀ c ∈ [',', ']', '}'], continueNumber c position = none) :
      Ends float v stack ⟨.number text position, stack⟩

/-- Behind either the machine goes on as behind a value. -/
theorem Ends.step {v : Json} (ends : Ends float v stack s) (hc : c ∈ [',', ']', '}']) :
    Json.step float s (ofChar c) = stepAfter v stack (ofChar c) := by
  cases ends with
  | after => rfl
  | number text position value sign closed =>
      have small : c.toNat < 128 := by
        simp only [List.mem_cons, List.not_mem_nil, or_false] at hc
        rcases hc with rfl | rfl | rfl <;> decide
      have unsigned : ¬(text = ['-'] ∧ ofChar c = ofChar 'I') := fun h => sign h.1
      simp only [Json.step, stepNumber, ascii_ofChar small, closed c hc, if_neg unsigned, value]

theorem Ends.finish {v : Json} (ends : Ends float v [] s) : Json.finish float s = .ok v := by
  cases ends with
  | after => rfl
  | number text position value sign closed => simp only [Json.finish, value]

theorem toNat_lt_of_isDigit (digit : c.isDigit = true) : c.toNat < 128 :=
  (printable_of_isDigit digit).2.trans (by decide)

/-- Digits behind a digit that is not the leading zero. -/
theorem reads_digits {text digits : List Char} (hdigits : ∀ c ∈ digits, c.isDigit = true) :
    Reads float ⟨.number text .whole, stack⟩ digits ⟨.number (text ++ digits) .whole, stack⟩ := by
  induction digits generalizing text with
  | nil =>
      rw [List.append_nil]
      exact .nil
  | cons c digits ih =>
      obtain ⟨hc, hdigits⟩ := List.forall_mem_cons.mp hdigits
      have small := toNat_lt_of_isDigit hc
      have rest : Reads float ⟨.number (text ++ [c]) .whole, stack⟩ digits
          ⟨.number (text ++ [c] ++ digits) .whole, stack⟩ := ih hdigits
      rw [List.append_assoc] at rest
      refine .cons ?_ rest
      simp only [step, stepNumber, ascii_ofChar small, continueNumber, hc, if_true]

/-- The digits of a positive number do not start with a zero. -/
theorem exists_head_toDigits (positive : 0 < n) :
    ∃ c digits, Nat.toDigits 10 n = c :: digits ∧ c ≠ '0' := by
  induction n using Nat.strong_induction_on with
  | _ n ih =>
      rw [Nat.toDigits_eq_if (by decide)]
      split
      · rename_i small
        have all : ∀ d : Fin 10, 0 < d.val → Nat.digitChar d ≠ '0' := by decide
        exact ⟨_, [], rfl, all ⟨n, small⟩ positive⟩
      · obtain ⟨c, digits, hn, hc⟩ := ih (n / 10) (by omega) (by omega)
        exact ⟨c, digits ++ [Nat.digitChar (n % 10)], by rw [hn]; rfl, hc⟩

/-- The integer of digits, with a sign in front or not. -/
theorem integer_digits (n : Nat) (negative : Bool)
    (short : (Nat.toDigits 10 n).length ≤ maxDigits) :
    integer ((if negative then ['-'] else []) ++ Nat.toDigits 10 n) =
      .ok (.int (if negative then -n else n)) := by
  have digit : ∀ c ∈ Nat.toDigits 10 n, c.isDigit = true := fun c hc =>
    Nat.isDigit_of_mem_toDigits (by decide) (by decide) hc
  obtain ⟨c, digits, hn⟩ := List.exists_cons_of_ne_nil (Nat.toDigits_ne_nil (n := n) (b := 10))
  have unsigned : c ≠ '-' := by
    rintro rfl
    exact absurd (digit '-' (hn ▸ List.mem_cons_self)) (by decide)
  have stripped : ((if negative then ['-'] else []) ++ Nat.toDigits 10 n).dropWhile (· = '-') =
      Nat.toDigits 10 n := by
    rw [hn]
    cases negative <;> simp [unsigned]
  have head : (((if negative then ['-'] else []) ++ Nat.toDigits 10 n).head? = some '-') ↔
      negative = true := by
    rw [hn]
    cases negative <;> simp [unsigned]
  have all : (Nat.toDigits 10 n).takeWhile Char.isDigit = Nat.toDigits 10 n :=
    List.takeWhile_eq_self_iff.mpr digit
  simp only [integer, stripped, all, head, if_neg (not_lt.mpr short), Nat.ofDigitChars_ten_toDigits]

theorem exists_digitChar (digit : c.isDigit = true) : ∃ d : Fin 10, c = Nat.digitChar d := by
  rw [Char.isDigit, Bool.and_eq_true, decide_eq_true_eq, decide_eq_true_eq] at digit
  have low : 48 ≤ c.toNat := UInt32.le_iff_toNat_le.mp digit.1
  have high : c.toNat ≤ 57 := UInt32.le_iff_toNat_le.mp digit.2
  have all : ∀ d : Fin 10, (Nat.digitChar d).toNat = 48 + d := by decide
  refine ⟨⟨c.toNat - 48, by omega⟩, Char.toNat_inj.mp ?_⟩
  rw [all]
  show c.toNat = 48 + (c.toNat - 48)
  omega

/-- The first digit of a number that is not zero. -/
theorem step_first_digit (negative : Bool) (digit : c.isDigit = true) (nonzero : c ≠ '0') :
    step float (if negative then ⟨.number ['-'] .minus, stack⟩ else ⟨.value, stack⟩) (ofChar c) =
      .ok ⟨.number ((if negative then ['-'] else []) ++ [c]) .whole, stack⟩ := by
  have small := ascii_ofChar (toNat_lt_of_isDigit digit)
  cases negative with
  | true => simp [step, stepNumber, small, continueNumber, digit, nonzero]
  | false =>
      obtain ⟨d, rfl⟩ := exists_digitChar digit
      fin_cases d
      · exact absurd rfl nonzero
      all_goals rfl

theorem whole_closed : ∀ c ∈ [',', ']', '}'], continueNumber c .zero = none ∧
    continueNumber c .whole = none := by
  simp only [List.forall_mem_cons, List.not_mem_nil, false_implies, implies_true, and_true]
  exact ⟨⟨rfl, rfl⟩, ⟨rfl, rfl⟩, rfl, rfl⟩

theorem reads_nat (n : Nat) (negative : Bool) (short : (Nat.toDigits 10 n).length ≤ maxDigits) :
    ∃ t, Reads float (if negative then ⟨.number ['-'] .minus, stack⟩ else ⟨.value, stack⟩)
      (Nat.toDigits 10 n) t ∧ Ends float (.int (if negative then -n else n)) stack t := by
  have value := integer_digits n negative short
  by_cases zero : n = 0
  · subst zero
    refine ⟨⟨.number ((if negative then ['-'] else []) ++ ['0']) .zero, stack⟩, ?_,
      .number _ _ value ?_ fun c hc => (whole_closed c hc).1⟩
    · cases negative with
      | false => exact .single rfl
      | true => exact .single rfl
    · cases negative <;> decide
  · obtain ⟨c, digits, hn, nonzero⟩ := exists_head_toDigits (Nat.pos_of_ne_zero zero)
    have digit : ∀ d ∈ Nat.toDigits 10 n, d.isDigit = true := fun d hd =>
      Nat.isDigit_of_mem_toDigits (by decide) (by decide) hd
    rw [hn] at value digit ⊢
    obtain ⟨hc, hdigits⟩ := List.forall_mem_cons.mp digit
    have first : step float (if negative then ⟨.number ['-'] .minus, stack⟩ else ⟨.value, stack⟩)
        (ofChar c) = .ok ⟨.number ((if negative then ['-'] else []) ++ [c]) .whole, stack⟩ :=
      step_first_digit negative hc nonzero
    have rest : Reads float ⟨.number ((if negative then ['-'] else []) ++ [c]) .whole, stack⟩ digits
        ⟨.number ((if negative then ['-'] else []) ++ [c] ++ digits) .whole, stack⟩ :=
      reads_digits hdigits
    rw [List.append_assoc] at rest
    refine ⟨_, .cons first rest, .number _ _ value ?_ fun c hc => (whole_closed c hc).2⟩
    cases negative with
    | false =>
        rintro ⟨⟩
        exact absurd hc (by decide)
    | true => rintro ⟨⟩

theorem reads_int (i : Int) (short : (Nat.toDigits 10 i.natAbs).length ≤ maxDigits) :
    ∃ t, Reads float ⟨.value, stack⟩ (intRepr i) t ∧ Ends float (.int i) stack t := by
  cases i with
  | ofNat n => exact reads_nat n false short
  | negSucc n =>
      obtain ⟨t, read, ends⟩ : ∃ t, Reads float ⟨.number ['-'] .minus, stack⟩
          (Nat.toDigits 10 (n + 1)) t ∧ Ends float (.int (.negSucc n)) stack t :=
        reads_nat (n + 1) true short
      exact ⟨t, .cons rfl read, ends⟩

/-- Values that are read back from their text. -/
inductive Readable : Json → Prop
  | null : Readable .null
  | bool (b : Bool) : Readable (.bool b)
  | int (i : Int) (short : (Nat.toDigits 10 i.natAbs).length ≤ maxDigits) : Readable (.int i)
  | string (s : PyStr) (unjoined : Unjoined s) : Readable (.string s)
  | array (items : List Json) (readable : ∀ v ∈ items, Readable v) : Readable (.array items)
  | object (members : List (PyStr × Json)) (distinct : (members.map Prod.fst).Nodup)
      (keys : ∀ m ∈ members, Unjoined m.1) (readable : ∀ m ∈ members, Readable m.2) :
      Readable (.object members)

/-- A comma and a colon, each with blanks behind it or not. -/
structure Spaced (sep : Separators) : Prop where
  item : ∃ blanks : List Char, sep.item = ',' :: blanks ∧ ∀ c ∈ blanks, c = ' '
  key : ∃ blanks : List Char, sep.key = ':' :: blanks ∧ ∀ c ∈ blanks, c = ' '

theorem spaced_default : Spaced .default :=
  ⟨⟨[' '], rfl, by simp⟩, ⟨[' '], rfl, by simp⟩⟩

theorem spaced_compact : Spaced .compact :=
  ⟨⟨[], rfl, by simp⟩, ⟨[], rfl, by simp⟩⟩

/-- Where blanks are passed over. -/
theorem reads_blanks {blanks : List Char} (hblanks : ∀ c ∈ blanks, c = ' ')
    (passes : step float s (ofChar ' ') = .ok s) : Reads float s blanks s := by
  induction blanks with
  | nil => exact .nil
  | cons c blanks ih =>
      obtain ⟨hc, hblanks⟩ := List.forall_mem_cons.mp hblanks
      exact .cons (hc ▸ passes) (ih hblanks)

/-- The value is read behind any containers. -/
def ReadBack (float : List Char → PyFloat) (sep : Separators) (v : Json) : Prop :=
  ∀ stack, ∃ t, Reads float ⟨.value, stack⟩ (dumps sep v) t ∧ Ends float v stack t

variable {sep : Separators} {v : Json} {items : List Json} {entries : List (PyStr × Json)}

/-- The items that are left, behind a value in an array. -/
theorem reads_items (spaced : Spaced sep) {before : List Json}
    (ends : Ends float v (.array before :: stack) s)
    (readable : ∀ w ∈ items, ReadBack float sep w) :
    Reads float s (dumpItems sep false items ++ [']'])
      ⟨.after (.array (before ++ v :: items)), stack⟩ := by
  induction items generalizing before v s with
  | nil => exact .single (ends.step (by decide))
  | cons w items ih =>
      obtain ⟨hw, readable⟩ := List.forall_mem_cons.mp readable
      obtain ⟨blanks, hitem, hblanks⟩ := spaced.item
      obtain ⟨t, read, ends'⟩ := hw (.array (before ++ [v]) :: stack)
      have rest := ih ends' readable
      rw [List.append_assoc] at rest
      rw [dumpItems, if_neg (by decide), hitem, List.cons_append, List.cons_append,
        List.append_assoc, List.append_assoc]
      refine .cons (t := ⟨.value, .array (before ++ [v]) :: stack⟩) (ends.step (by decide)) ?_
      exact (reads_blanks hblanks rfl).append (read.append rest)

/-- The members that are left, behind a value in an object. -/
theorem reads_members (spaced : Spaced sep) {members : Members} {key : PyStr}
    (ends : Ends float v (.member members key :: stack) s)
    (keys : ∀ m ∈ entries, Unjoined m.1) (readable : ∀ m ∈ entries, ReadBack float sep m.2) :
    Reads float s (dumpMembers sep false entries ++ ['}'])
      ⟨.after (.object (entries.foldl (fun d m => d.setItem m.1 m.2)
        (members.setItem key v)).entries), stack⟩ := by
  induction entries generalizing members key v s with
  | nil => exact .single (ends.step (by decide))
  | cons m entries ih =>
      obtain ⟨hkey, keys⟩ := List.forall_mem_cons.mp keys
      obtain ⟨hvalue, readable⟩ := List.forall_mem_cons.mp readable
      obtain ⟨blanks, hitem, hblanks⟩ := spaced.item
      obtain ⟨blanks', hcolon, hblanks'⟩ := spaced.key
      obtain ⟨t, read, ends'⟩ := hvalue (.member (members.setItem key v) m.1 :: stack)
      have rest := ih ends' keys readable
      rw [dumpMembers, if_neg (by decide), hitem, hcolon]
      simp only [List.cons_append, List.append_assoc]
      refine .cons (t := ⟨.key (members.setItem key v), stack⟩) (ends.step (by decide)) ?_
      refine (reads_blanks hblanks rfl).append ((reads_key rfl hkey).append ?_)
      refine .cons (t := ⟨.value, .member (members.setItem key v) m.1 :: stack⟩) rfl ?_
      exact (reads_blanks hblanks' rfl).append (read.append rest)

/-- A character that a value can start with. -/
structure Opening (c : Char) : Prop where
  ascii : c.toNat < 128
  notClosing : c ≠ ']'
  visible : isSpace (ofChar c) = false

theorem opening_of_isDigit (digit : c.isDigit = true) : Opening c := by
  obtain ⟨d, rfl⟩ := exists_digitChar digit
  have all : ∀ d : Fin 10, (Nat.digitChar d).toNat < 128 ∧ Nat.digitChar d ≠ ']' ∧
      isSpace (ofChar (Nat.digitChar d)) = false := by decide
  exact ⟨(all d).1, (all d).2.1, (all d).2.2⟩

theorem exists_head_dumps (readable : Readable v) : ∃ c text, dumps sep v = c :: text ∧
    Opening c := by
  cases readable with
  | null => exact ⟨_, _, rfl, by decide, by decide, by decide⟩
  | bool b =>
      cases b with
      | false => exact ⟨_, _, rfl, by decide, by decide, by decide⟩
      | true => exact ⟨_, _, rfl, by decide, by decide, by decide⟩
  | int i short =>
      cases i with
      | ofNat n =>
          obtain ⟨c, digits, hn⟩ :=
            List.exists_cons_of_ne_nil (Nat.toDigits_ne_nil (n := n) (b := 10))
          exact ⟨c, digits, hn, opening_of_isDigit (Nat.isDigit_of_mem_toDigits (by decide)
            (by decide) (hn ▸ List.mem_cons_self))⟩
      | negSucc n => exact ⟨_, _, rfl, by decide, by decide, by decide⟩
  | string s unjoined => exact ⟨_, _, rfl, by decide, by decide, by decide⟩
  | array items readable => exact ⟨_, _, rfl, by decide, by decide, by decide⟩
  | object members distinct keys readable => exact ⟨_, _, rfl, by decide, by decide, by decide⟩

/-- An array of values that are read back is. -/
theorem readBack_array (spaced : Spaced sep) (readable : ∀ w ∈ items, Readable w)
    (ih : ∀ w ∈ items, ReadBack float sep w) : ReadBack float sep (.array items) := by
  intro stack
  refine ⟨⟨.after (.array items), stack⟩, ?_, .after⟩
  cases items with
  | nil => exact .cons (t := ⟨.firstItem, stack⟩) rfl (.single rfl)
  | cons v items =>
      obtain ⟨hv, ih⟩ := List.forall_mem_cons.mp ih
      obtain ⟨c, text, htext, opening⟩ : ∃ c text, dumps sep v = c :: text ∧ Opening c :=
        exists_head_dumps (readable v List.mem_cons_self)
      obtain ⟨t, read, ends⟩ := hv (.array [] :: stack)
      have rest := read.append (reads_items spaced ends ih)
      have first : step float ⟨.firstItem, stack⟩ (ofChar c) =
          step float ⟨.value, .array [] :: stack⟩ (ofChar c) := by
        have other : ofChar c ≠ ofChar ']' := fun same =>
          opening.notClosing (CodePoint.ofChar_injective same)
        simp only [step, if_neg other, opening.visible, Bool.false_eq_true, if_false]
      rw [dumps, dumpItems, if_pos rfl, List.nil_append, List.append_assoc]
      refine .cons (t := ⟨.firstItem, stack⟩) rfl ?_
      rw [htext] at rest ⊢
      unfold Reads scan at rest ⊢
      rw [List.cons_append, List.map_cons, List.foldlM_cons] at rest ⊢
      rw [first]
      exact rest

theorem readBack_object (spaced : Spaced sep) (distinct : (entries.map Prod.fst).Nodup)
    (keys : ∀ m ∈ entries, Unjoined m.1) (ih : ∀ m ∈ entries, ReadBack float sep m.2) :
    ReadBack float sep (.object entries) := by
  intro stack
  refine ⟨⟨.after (.object entries), stack⟩, ?_, .after⟩
  cases entries with
  | nil => exact .cons (t := ⟨.firstKey, stack⟩) rfl (.single rfl)
  | cons m entries =>
      obtain ⟨hkey, keys⟩ := List.forall_mem_cons.mp keys
      obtain ⟨hvalue, ih⟩ := List.forall_mem_cons.mp ih
      obtain ⟨blanks, hcolon, hblanks⟩ := spaced.key
      obtain ⟨t, read, ends⟩ := hvalue (.member .empty m.1 :: stack)
      have rest := read.append (reads_members spaced ends keys ih)
      have entered : (entries.foldl (fun d m => d.setItem m.1 m.2)
          (OrderedDict.empty.setItem m.1 m.2)).entries = m :: entries :=
        OrderedDict.entries_foldl_setItem (d := .empty) distinct fun _ _ h => by cases h
      rw [entered] at rest
      rw [dumps, dumpMembers, if_pos rfl, hcolon]
      simp only [List.nil_append, List.append_assoc, List.cons_append]
      refine .cons (t := ⟨.firstKey, stack⟩) rfl ((reads_key rfl hkey).append ?_)
      exact .cons (t := ⟨.value, .member .empty m.1 :: stack⟩) rfl
        ((reads_blanks hblanks rfl).append rest)

theorem Readable.readBack (spaced : Spaced sep) (readable : Readable v) :
    ReadBack float sep v := by
  induction readable with
  | null => exact fun stack => ⟨⟨.after .null, stack⟩, rfl, .after⟩
  | bool b =>
      intro stack
      refine ⟨⟨.after (.bool b), stack⟩, ?_, .after⟩
      cases b with
      | false => rfl
      | true => rfl
  | int i short => exact fun stack => reads_int i short
  | string s unjoined => exact fun stack => ⟨_, reads_value unjoined, .after⟩
  | array items readable ih => exact readBack_array spaced readable ih
  | object members distinct keys readable ih => exact readBack_object spaced distinct keys ih

/-- A readable value is read back from its text. -/
theorem loads_dumps (float : List Char → PyFloat) (spaced : Spaced sep) (readable : Readable v) :
    loads float ((dumps sep v).map ofChar) = .ok v := by
  obtain ⟨t, read, ends⟩ : ∃ t, Reads float ⟨.value, []⟩ (dumps sep v) t ∧ Ends float v [] t :=
    readable.readBack spaced []
  obtain ⟨c, text, htext, opening⟩ : ∃ c text, dumps sep v = c :: text ∧ Opening c :=
    exists_head_dumps readable
  have unmarked : ((dumps sep v).map ofChar).head? ≠ some 0xFEFF := by
    rw [htext]
    intro marked
    have code : c.toNat = 0xFEFF := congrArg Fin.val (Option.some.inj marked)
    have := opening.ascii
    omega
  unfold Reads at read
  rw [loads, if_neg unmarked, read]
  exact ends.finish

/-- The members of an object of strings. -/
def stringMembers (members : List (PyStr × PyStr)) : List (PyStr × Json) :=
  members.map fun m => (m.1, .string m.2)

end Json

end PaymentsPlatform
