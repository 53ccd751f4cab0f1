import Mathlib

/-!
# JSON values and their texts

Python's `json`: the values `json.loads` makes, and the text `json.dumps` makes of them,
with `ensure_ascii` and separators to choose. A Python string is a list of code points,
surrogates included; an object is a dictionary, in the order of its keys. A float is given
by its `repr`.
-/

namespace PaymentsPlatform

/-- An element of a Python string. -/
abbrev CodePoint := Fin 0x110000

instance CodePoint.neZero : NeZero 0x110000 := ⟨by decide⟩

/-- A string of Python, which may have surrogates. -/
abbrev PyStr := List CodePoint

namespace CodePoint

/-- What a character is as a number. -/
theorem toNat_char (c : Char) :
    c.toNat < 0xD800 ∨ 0xDFFF < c.toNat ∧ c.toNat < 0x110000 := c.valid

def ofChar (c : Char) : CodePoint := ⟨c.toNat, by have := toNat_char c; omega⟩

def isSurrogate (c : CodePoint) : Bool := decide (0xD800 ≤ c.val ∧ c.val < 0xE000)

@[simp] theorem val_ofChar (c : Char) : (ofChar c).val = c.toNat := rfl

theorem ofChar_injective : Function.Injective ofChar := by
  intro c d h
  have same : (ofChar c).val = (ofChar d).val := congrArg Fin.val h
  exact Char.toNat_inj.mp same

/-- A character is no surrogate. -/
@[simp] theorem isSurrogate_ofChar (c : Char) : (ofChar c).isSurrogate = false := by
  have := toNat_char c
  rw [isSurrogate, val_ofChar, decide_eq_false_iff_not]
  omega

theorem isSurrogate_of_mem {text : List Char} {c : CodePoint} (h : c ∈ text.map ofChar) :
    c.isSurrogate = false := by
  obtain ⟨c, _, rfl⟩ := List.mem_map.mp h
  exact isSurrogate_ofChar c

end CodePoint

/-- The string of some characters. -/
def pyStr (s : String) : PyStr := s.toList.map CodePoint.ofChar

/-- A float, by the text of its `repr`. -/
inductive PyFloat where
  | nan
  | infinity (negative : Bool)
  | finite (negative : Bool) (first : Fin 10) (rest : List Char)
      (numeric : ∀ c ∈ rest, c.isDigit = true ∨ c ∈ ['.', 'e', '+', '-'])

/-- What `json.loads` returns. -/
inductive Json where
  | null
  | bool (b : Bool)
  | int (n : Int)
  | float (x : PyFloat)
  | string (s : PyStr)
  | array (items : List Json)
  | object (members : List (PyStr × Json))

/-- What is written between items, and between a key and its value. -/
structure Separators where
  item : List Char
  key : List Char

/-- The separators of `json.dumps` by default. -/
def Separators.default : Separators := ⟨", ".toList, ": ".toList⟩

/-- The separators without blanks. -/
def Separators.compact : Separators := ⟨[','], [':']⟩

namespace Json

/-- The escapes of one letter. -/
def shortEscape (n : Nat) : Option Char :=
  match n with
  | 0x22 => some '"'
  | 0x5C => some '\\'
  | 0x08 => some 'b'
  | 0x09 => some 't'
  | 0x0A => some 'n'
  | 0x0C => some 'f'
  | 0x0D => some 'r'
  | _ => none

def hexDigits (n : Nat) : List Char :=
  [Nat.digitChar (n / 4096 % 16), Nat.digitChar (n / 256 % 16), Nat.digitChar (n / 16 % 16),
   Nat.digitChar (n % 16)]

def unicodeEscape (n : Nat) : List Char := '\\' :: 'u' :: hexDigits n

/-- A code point of a string; beyond the basic plane it takes two escapes. -/
def escapeChar (c : CodePoint) : List Char :=
  match shortEscape c.val with
  | some letter => ['\\', letter]
  | none =>
      if 0x20 ≤ c.val ∧ c.val ≤ 0x7E then [Char.ofNat c.val]
      else if c.val < 0x10000 then unicodeEscape c.val
      else unicodeEscape (0xD800 + (c.val - 0x10000) / 0x400) ++
        unicodeEscape (0xDC00 + (c.val - 0x10000) % 0x400)

def escape (s : PyStr) : List Char := s.flatMap escapeChar

def quote (s : PyStr) : List Char := '"' :: (escape s ++ ['"'])

/-- An integer in decimal. -/
def intRepr : Int → List Char
  | .ofNat n => Nat.toDigits 10 n
  | .negSucc n => '-' :: Nat.toDigits 10 (n + 1)

/-- `float.__repr__`, with the names `json` has for what is no number. -/
def floatRepr : PyFloat → List Char
  | .nan => "NaN".toList
  | .infinity negative => (if negative then "-Infinity" else "Infinity").toList
  | .finite negative first rest _ =>
      (if negative then ['-'] else []) ++ Nat.digitChar first :: rest

mutual

/-- The text of a value, in ASCII. -/
def dumps (sep : Separators) : Json → List Char
  | null => "null".toList
  | bool b => (if b then "true" else "false").toList
  | int n => intRepr n
  | float x => floatRepr x
  | string s => quote s
  | array items => '[' :: (dumpItems sep true items ++ [']'])
  | object members => '{' :: (dumpMembers sep true members ++ ['}'])

/-- The items of an array, each but the first with a separator. -/
def dumpItems (sep : Separators) (first : Bool) : List Json → List Char
  | [] => []
  | item :: items =>
      (if first then [] else sep.item) ++ (dumps sep item ++ dumpItems sep false items)

/-- The members of an object. -/
def dumpMembers (sep : Separators) (first : Bool) : List (PyStr × Json) → List Char
  | [] => []
  | (key, value) :: members =>
      (if first then [] else sep.item) ++ (quote key ++
        (sep.key ++ (dumps sep value ++ dumpMembers sep false members)))

end

/-- A printable character of ASCII. -/
def Printable (c : Char) : Prop := 0x20 ≤ c.toNat ∧ c.toNat < 0x7F

instance (c : Char) : Decidable (Printable c) := inferInstanceAs (Decidable (_ ∧ _))

section Printable

variable {sep : Separators} {c : Char}

private theorem printable_of_all {text : List Char}
    (h : text.all (fun c => decide (Printable c)) = true) (hc : c ∈ text) : Printable c :=
  of_decide_eq_true (List.all_eq_true.mp h c hc)

theorem printable_of_isDigit (h : c.isDigit = true) : Printable c := by
  rw [Char.isDigit, Bool.and_eq_true, decide_eq_true_eq, decide_eq_true_eq] at h
  have low : '0'.toNat ≤ c.toNat := UInt32.le_iff_toNat_le.mp h.1
  have high : c.toNat ≤ '9'.toNat := UInt32.le_iff_toNat_le.mp h.2
  exact ⟨le_trans (by decide) low, lt_of_le_of_lt high (by decide)⟩

private theorem printable_hexDigits {n : Nat} (hc : c ∈ hexDigits n) : Printable c := by
  have all : ∀ d : Fin 16, Printable (Nat.digitChar d) := by decide
  simp only [hexDigits, List.mem_cons, List.not_mem_nil, or_false] at hc
  rcases hc with rfl | rfl | rfl | rfl <;> exact all ⟨_, Nat.mod_lt _ (by decide)⟩

private theorem printable_unicodeEscape {n : Nat} (hc : c ∈ unicodeEscape n) : Printable c := by
  rcases List.mem_cons.mp hc with rfl | hc
  · decide
  · rcases List.mem_cons.mp hc with rfl | hc
    · decide
    · exact printable_hexDigits hc

theorem printable_escapeChar {p : CodePoint} (hc : c ∈ escapeChar p) : Printable c := by
  unfold escapeChar at hc
  split at hc
  · rename_i letter hletter
    have : Printable letter := by
      unfold shortEscape at hletter
      split at hletter <;> cases hletter
      all_goals decide
    rcases List.mem_cons.mp hc with rfl | hc
    · decide
    · rwa [List.mem_singleton.mp hc]
  · split at hc
    · rename_i plain
      rw [List.mem_singleton.mp hc, Printable, Char.toNat_ofNat, if_pos (.inl (by omega))]
      omega
    · split at hc
      · exact printable_unicodeEscape hc
      · exact (List.mem_append.mp hc).elim printable_unicodeEscape printable_unicodeEscape

theorem printable_quote {s : PyStr} (hc : c ∈ quote s) : Printable c := by
  simp only [quote, escape, List.mem_cons, List.mem_append, List.mem_flatMap, List.not_mem_nil,
    or_false] at hc
  rcases hc with rfl | ⟨p, _, hc⟩ | rfl
  · decide
  · exact printable_escapeChar hc
  · decide

theorem printable_intRepr {n : Int} (hc : c ∈ intRepr n) : Printable c := by
  have digits : ∀ m, c ∈ Nat.toDigits 10 m → Printable c := fun m h =>
    printable_of_isDigit (Nat.isDigit_of_mem_toDigits (by decide) (by decide) h)
  cases n with
  | ofNat n => exact digits n hc
  | negSucc n =>
      rcases List.mem_cons.mp hc with rfl | hc
      · decide
      · exact digits _ hc

theorem printable_floatRepr {x : PyFloat} (hc : c ∈ floatRepr x) : Printable c := by
  cases x with
  | nan => exact printable_of_all (by decide) hc
  | infinity negative =>
      cases negative with
      | false => exact printable_of_all (by decide) hc
      | true => exact printable_of_all (by decide) hc
  | finite negative first rest numeric =>
      have digit : ∀ d : Fin 10, Printable (Nat.digitChar d) := by decide
      simp only [floatRepr, List.mem_append, List.mem_cons] at hc
      rcases hc with hc | rfl | hc
      · cases negative with
        | false => cases hc
        | true =>
            rw [List.mem_singleton.mp hc]
            decide
      · exact digit first
      · rcases numeric c hc with hdigit | hmark
        · exact printable_of_isDigit hdigit
        · exact printable_of_all (by decide) hmark

mutual

/-- Everything that `json.dumps` prints is printable, when the separators are. -/
theorem printable_dumps (hitem : ∀ c ∈ sep.item, Printable c) (hkey : ∀ c ∈ sep.key, Printable c) :
    ∀ t : Json, ∀ c ∈ dumps sep t, Printable c
  | .null, c, hc => printable_of_all (by decide) (show c ∈ "null".toList from hc)
  | .bool true, c, hc => printable_of_all (by decide) (show c ∈ "true".toList from hc)
  | .bool false, c, hc => printable_of_all (by decide) (show c ∈ "false".toList from hc)
  | .int _, c, hc => printable_intRepr hc
  | .float _, c, hc => printable_floatRepr hc
  | .string _, c, hc => printable_quote hc
  | .array items, c, hc => by
      simp only [dumps, List.mem_cons, List.mem_append, List.not_mem_nil, or_false] at hc
      rcases hc with rfl | hc | rfl
      · decide
      · exact printable_dumpItems hitem hkey true items c hc
      · decide
  | .object members, c, hc => by
      simp only [dumps, List.mem_cons, List.mem_append, List.not_mem_nil, or_false] at hc
      rcases hc with rfl | hc | rfl
      · decide
      · exact printable_dumpMembers hitem hkey true members c hc
      · decide

theorem printable_dumpItems (hitem : ∀ c ∈ sep.item, Printable c)
    (hkey : ∀ c ∈ sep.key, Printable c) (first : Bool) :
    ∀ items : List Json, ∀ c ∈ dumpItems sep first items, Printable c
  | [], c, hc => by cases hc
  | item :: items, c, hc => by
      simp only [dumpItems, List.mem_append] at hc
      rcases hc with hc | hc | hc
      · cases first with
        | true => cases hc
        | false => exact hitem c hc
      · exact printable_dumps hitem hkey item c hc
      · exact printable_dumpItems hitem hkey false items c hc

theorem printable_dumpMembers (hitem : ∀ c ∈ sep.item, Printable c)
    (hkey : ∀ c ∈ sep.key, Printable c) (first : Bool) :
    ∀ members : List (PyStr × Json), ∀ c ∈ dumpMembers sep first members, Printable c
  | [], c, hc => by cases hc
  | (key, value) :: members, c, hc => by
      simp only [dumpMembers, List.mem_append] at hc
      rcases hc with hc | hc | hc | hc | hc
      · cases first with
        | true => cases hc
        | false => exact hitem c hc
      · exact printable_quote hc
      · exact hkey c hc
      · exact printable_dumps hitem hkey value c hc
      · exact printable_dumpMembers hitem hkey false members c hc

end

/-- So is everything printed with the default separators, -/
theorem printable_default (t : Json) (hc : c ∈ dumps .default t) : Printable c :=
  printable_dumps (fun _ hc => printable_of_all (by decide) (show _ ∈ ", ".toList from hc))
    (fun _ hc => printable_of_all (by decide) (show _ ∈ ": ".toList from hc)) t c hc

/-- or without blanks. -/
theorem printable_compact (t : Json) (hc : c ∈ dumps .compact t) : Printable c := by
  refine printable_dumps (fun c hc => ?_) (fun c hc => ?_) t c hc
  · rw [List.mem_singleton.mp hc]
    decide
  · rw [List.mem_singleton.mp hc]
    decide

end Printable

end Json

end PaymentsPlatform
