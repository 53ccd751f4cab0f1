import PaymentsPlatform.Json.Value
import PaymentsPlatform.Collections.OrderedDict

/-!
# Reading JSON

Python's `json.loads` as a machine that reads one code point at a time: what it has read
of the innermost value, and the containers around it. A number ends with the first
character that does not continue it, so that the machine reads that character again
behind the value. The values are those of Python: an object keeps the last value of a
repeated key, in the place of the first, a pair of escaped surrogates is one code point
and a single one stands for itself, and an integer may have 4300 digits.
-/

namespace PaymentsPlatform

/-- A `JSONDecodeError`, or the `ValueError` of an integer that is too long. -/
inductive LoadError where
  | decode
  | tooLong
  deriving DecidableEq, Repr

namespace Json

/-- An object that is being read. -/
abbrev Members := OrderedDict PyStr Json

/-- A container that a value is read in. -/
inductive Frame where
  | array (items : List Json)
  | member (members : Members) (key : PyStr)

/-- How far an escape is. A high surrogate that was escaped waits for a low one. -/
inductive StringPosition where
  | plain (high : Option Nat)
  | escape (high : Option Nat)
  | hex (high : Option Nat) (count value : Nat)

/-- How far a number is. -/
inductive NumberPosition where
  | minus
  | zero
  | whole
  | point
  | fraction
  | e (fraction : Bool)
  | sign (fraction : Bool)
  | exponent

/-- What is being read; a string is a key of `members` or a value. -/
inductive Mode where
  | value
  | firstItem
  | firstKey
  | key (members : Members)
  | colon (members : Members) (key : PyStr)
  | string (members : Option Members) (s : PyStr) (position : StringPosition)
  | number (text : List Char) (position : NumberPosition)
  | literal (rest : List Char) (value : Json)
  | after (value : Json)

structure Scanner where
  mode : Mode
  stack : List Frame

open CodePoint (ofChar)

/-- The white space between tokens. -/
def isSpace (c : CodePoint) : Bool := c ∈ [' ', '\t', '\n', '\r'].map ofChar

/-- A character of ASCII; another code point is none. -/
def ascii (c : CodePoint) : Char := if c.val < 128 then Char.ofNat c.val else '\uFFFD'

/-- The letters of an escape. -/
def unescape (letter : Char) : Option CodePoint :=
  match letter with
  | '"' => some 0x22
  | '\\' => some 0x5C
  | '/' => some 0x2F
  | 'b' => some 0x08
  | 't' => some 0x09
  | 'n' => some 0x0A
  | 'f' => some 0x0C
  | 'r' => some 0x0D
  | _ => none

def hexValue (c : Char) : Option Nat :=
  if c.isDigit then some (c.toNat - '0'.toNat)
  else if 'a' ≤ c ∧ c ≤ 'f' then some (c.toNat - 'a'.toNat + 10)
  else if 'A' ≤ c ∧ c ≤ 'F' then some (c.toNat - 'A'.toNat + 10)
  else none

/-- The digits that Python reads of an integer, by default. -/
def maxDigits : Nat := 4300

/-- The integer at the start of a number. -/
def integer (text : List Char) : Except LoadError Json :=
  let negative := text.head? = some '-'
  let digits := (text.dropWhile (· = '-')).takeWhile Char.isDigit
  if maxDigits < digits.length then .error .tooLong
  else
    let n : Int := Nat.ofDigitChars 10 digits 0
    .ok (.int (if negative then -n else n))

variable (float : List Char → PyFloat)

/-- The value of a number that goes no further. A point or an `e` without digits is not
read, which makes it an error, after the integer in front of it. -/
def numberValue (text : List Char) : NumberPosition → Except LoadError Json
  | .minus => .error .decode
  | .zero | .whole => integer text
  | .fraction | .exponent => .ok (.float (float text))
  | .point | .e false | .sign false =>
      match integer text with
      | .error e => .error e
      | .ok _ => .error .decode
  | .e true | .sign true => .error .decode

/-- The position behind one more character of the number. -/
def continueNumber (c : Char) : NumberPosition → Option NumberPosition
  | .minus => if c = '0' then some .zero else if c.isDigit then some .whole else none
  | .zero => if c = '.' then some .point else if c ∈ ['e', 'E'] then some (.e false) else none
  | .whole =>
      if c.isDigit then some .whole
      else if c = '.' then some .point
      else if c ∈ ['e', 'E'] then some (.e false) else none
  | .point => if c.isDigit then some .fraction else none
  | .fraction =>
      if c.isDigit then some .fraction
      else if c ∈ ['e', 'E'] then some (.e true) else none
  | .e fraction =>
      if c.isDigit then some .exponent
      else if c ∈ ['+', '-'] then some (.sign fraction) else none
  | .sign _ => if c.isDigit then some .exponent else none
  | .exponent => if c.isDigit then some .exponent else none

/-- A character where a value starts. -/
def stepValue (stack : List Frame) (c : CodePoint) : Except LoadError Scanner :=
  let become (mode : Mode) : Except LoadError Scanner := .ok ⟨mode, stack⟩
  if isSpace c then become .value
  else
    match ascii c with
    | '"' => become (.string none [] (.plain none))
    | '{' => become .firstKey
    | '[' => become .firstItem
    | 'n' => become (.literal "ull".toList .null)
    | 't' => become (.literal "rue".toList (.bool true))
    | 'f' => become (.literal "alse".toList (.bool false))
    | 'N' => become (.literal "aN".toList (.float .nan))
    | 'I' => become (.literal "nfinity".toList (.float (.infinity false)))
    | '-' => become (.number ['-'] .minus)
    | '0' => become (.number ['0'] .zero)
    | d => if d.isDigit then become (.number [d] .whole) else .error .decode

/-- A character behind a value. -/
def stepAfter (v : Json) (stack : List Frame) (c : CodePoint) : Except LoadError Scanner :=
  if isSpace c then .ok ⟨.after v, stack⟩
  else
    match stack with
    | [] => .error .decode
    | .array items :: stack =>
        if c = ofChar ',' then .ok ⟨.value, .array (items ++ [v]) :: stack⟩
        else if c = ofChar ']' then .ok ⟨.after (.array (items ++ [v])), stack⟩
        else .error .decode
    | .member members key :: stack =>
        if c = ofChar ',' then .ok ⟨.key (members.setItem key v), stack⟩
        else if c = ofChar '}' then .ok ⟨.after (.object (members.setItem key v).entries), stack⟩
        else .error .decode

/-- The code point of an escape, joined with the high surrogate that waits for it. -/
def pushUnicode (s : PyStr) (high : Option Nat) (value : Nat) : PyStr × StringPosition :=
  match high.filter fun _ => 0xDC00 ≤ value ∧ value < 0xE000 with
  | some h =>
      (s.dropLast ++ [Fin.ofNat 0x110000 (0x10000 + (h - 0xD800) * 0x400 + (value - 0xDC00))],
        .plain none)
  | none =>
      (s ++ [Fin.ofNat 0x110000 value],
        .plain (if 0xD800 ≤ value ∧ value < 0xDC00 then some value else none))

/-- A character of a string, which may end it. -/
def stepString (stack : List Frame) (members : Option Members) (s : PyStr) (c : CodePoint) :
    StringPosition → Except LoadError Scanner
  | .plain high =>
      if c = ofChar '"' then
        match members with
        | none => .ok ⟨.after (.string s), stack⟩
        | some members => .ok ⟨.colon members s, stack⟩
      else if c = ofChar '\\' then .ok ⟨.string members s (.escape high), stack⟩
      else if c.val < 0x20 then .error .decode
      else .ok ⟨.string members (s ++ [c]) (.plain none), stack⟩
  | .escape high =>
      if c = ofChar 'u' then .ok ⟨.string members s (.hex high 0 0), stack⟩
      else
        match unescape (ascii c) with
        | some d => .ok ⟨.string members (s ++ [d]) (.plain none), stack⟩
        | none => .error .decode
  | .hex high count value =>
      match hexValue (ascii c) with
      | none => .error .decode
      | some d =>
          let value := value * 16 + d
          if count < 3 then .ok ⟨.string members s (.hex high (count + 1) value), stack⟩
          else
            let pushed := pushUnicode s high value
            .ok ⟨.string members pushed.1 pushed.2, stack⟩

/-- A character of a number, or the one behind it. -/
def stepNumber (stack : List Frame) (text : List Char) (position : NumberPosition)
    (c : CodePoint) : Except LoadError Scanner :=
  match continueNumber (ascii c) position with
  | some position => .ok ⟨.number (text ++ [ascii c]) position, stack⟩
  | none =>
      if text = ['-'] ∧ c = ofChar 'I' then
        .ok ⟨.literal "nfinity".toList (.float (.infinity true)), stack⟩
      else
        match numberValue float text position with
        | .error e => .error e
        | .ok v => stepAfter v stack c

/-- One character. -/
def step (s : Scanner) (c : CodePoint) : Except LoadError Scanner :=
  match s.mode with
  | .value => stepValue s.stack c
  | .firstItem =>
      if c = ofChar ']' then .ok ⟨.after (.array []), s.stack⟩
      else if isSpace c then .ok s
      else stepValue (.array [] :: s.stack) c
  | .firstKey =>
      if c = ofChar '}' then .ok ⟨.after (.object []), s.stack⟩
      else if isSpace c then .ok s
      else if c = ofChar '"' then .ok ⟨.string (some .empty) [] (.plain none), s.stack⟩
      else .error .decode
  | .key members =>
      if isSpace c then .ok s
      else if c = ofChar '"' then .ok ⟨.string (some members) [] (.plain none), s.stack⟩
      else .error .decode
  | .colon members key =>
      if isSpace c then .ok s
      else if c = ofChar ':' then .ok ⟨.value, .member members key :: s.stack⟩
      else .error .decode
  | .string members text position => stepString s.stack members text c position
  | .number text position => stepNumber float s.stack text position c
  | .literal rest value =>
      match rest with
      | [] => .error .decode
      | letter :: rest =>
          if c ≠ ofChar letter then .error .decode
          else if rest = [] then .ok ⟨.after value, s.stack⟩
          else .ok ⟨.literal rest value, s.stack⟩
  | .after v => stepAfter v s.stack c

/-- The value, when the text ends behind it. -/
def finish (s : Scanner) : Except LoadError Json :=
  match s.mode, s.stack with
  | .after v, [] => .ok v
  | .number text position, stack =>
      match numberValue float text position, stack with
      | .ok v, [] => .ok v
      | .error e, _ => .error e
      | .ok _, _ => .error .decode
  | _, _ => .error .decode

/-- What the machine makes of a text. -/
def scan (s : Scanner) (text : PyStr) : Except LoadError Scanner := text.foldlM (step float) s

/-- `json.loads` of a string; one with a byte order mark is refused. -/
def loads (text : PyStr) : Except LoadError Json :=
  if text.head? = some 0xFEFF then .error .decode
  else
    match scan float ⟨.value, []⟩ text with
    | .error e => .error e
    | .ok s => finish float s

end Json

end PaymentsPlatform
