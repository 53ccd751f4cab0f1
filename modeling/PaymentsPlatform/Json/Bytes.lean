import PaymentsPlatform.Json.Loads

/-!
# Reading JSON from bytes

`json.loads` of `bytes`: `detect_encoding`, the decoders it chooses from with
`surrogatepass`, and then the text. Text in printable ASCII is decoded as itself
(`loadsBytes_encode`).
-/

namespace PaymentsPlatform

namespace Json

/-- What `detect_encoding` tells apart. -/
inductive Encoding where
  | utf8
  | utf8Sig
  | utf16
  | utf16le
  | utf16be
  | utf32
  | utf32le
  | utf32be
  deriving DecidableEq, Repr

/-- `json.detect_encoding`: by the byte order mark, or by where the zeros are. -/
def detectEncoding (b : List UInt8) : Encoding :=
  if [0x00, 0x00, 0xFE, 0xFF] <+: b ∨ [0xFF, 0xFE, 0x00, 0x00] <+: b then .utf32
  else if [0xFE, 0xFF] <+: b ∨ [0xFF, 0xFE] <+: b then .utf16
  else if [0xEF, 0xBB, 0xBF] <+: b then .utf8Sig
  else
    match b with
    | b₀ :: b₁ :: b₂ :: b₃ :: _ =>
        if b₀ = 0 then (if b₁ ≠ 0 then .utf16be else .utf32be)
        else if b₁ = 0 then (if b₂ ≠ 0 ∨ b₃ ≠ 0 then .utf16le else .utf32le)
        else .utf8
    | [b₀, b₁] => if b₀ = 0 then .utf16be else if b₁ = 0 then .utf16le else .utf8
    | _ => .utf8

/-- A sequence of UTF-8 that is being read: the bytes it lacks, its bits so far and the
least value its length is for. -/
structure Utf8 where
  missing : Nat
  bits : Nat
  least : Nat
  text : PyStr

/-- One byte; surrogates pass. -/
def Utf8.step (s : Utf8) (byte : UInt8) : Option Utf8 :=
  let b := byte.toNat
  if s.missing = 0 then
    if b < 0x80 then some { s with text := s.text ++ [Fin.ofNat 0x110000 b] }
    else if 0xC0 ≤ b ∧ b < 0xE0 then some ⟨1, b - 0xC0, 0x80, s.text⟩
    else if 0xE0 ≤ b ∧ b < 0xF0 then some ⟨2, b - 0xE0, 0x800, s.text⟩
    else if 0xF0 ≤ b ∧ b < 0xF8 then some ⟨3, b - 0xF0, 0x10000, s.text⟩
    else none
  else if 0x80 ≤ b ∧ b < 0xC0 then
    let bits := s.bits * 64 + (b - 0x80)
    if 1 < s.missing then some { s with missing := s.missing - 1, bits := bits }
    else if s.least ≤ bits ∧ bits < 0x110000 then
      some ⟨0, 0, 0, s.text ++ [Fin.ofNat 0x110000 bits]⟩
    else none
  else none

def decodeUtf8 (b : List UInt8) : Option PyStr :=
  match b.foldlM Utf8.step ⟨0, 0, 0, []⟩ with
  | some s => if s.missing = 0 then some s.text else none
  | none => none

/-- The units of two bytes. -/
def units16 (little : Bool) : List UInt8 → Option (List Nat)
  | [] => some []
  | a :: b :: rest =>
      let unit := if little then b.toNat * 256 + a.toNat else a.toNat * 256 + b.toNat
      (units16 little rest).map (unit :: ·)
  | _ => none

/-- Surrogates in pairs are one code point, others pass. -/
def joinSurrogates : List Nat → PyStr
  | [] => []
  | [u] => [Fin.ofNat 0x110000 u]
  | u :: v :: rest =>
      if (0xD800 ≤ u ∧ u < 0xDC00) ∧ 0xDC00 ≤ v ∧ v < 0xE000 then
        Fin.ofNat 0x110000 (0x10000 + (u - 0xD800) * 0x400 + (v - 0xDC00)) :: joinSurrogates rest
      else Fin.ofNat 0x110000 u :: joinSurrogates (v :: rest)

def decodeUtf16 (little : Bool) (b : List UInt8) : Option PyStr :=
  (units16 little b).map joinSurrogates

def decodeUtf32 (little : Bool) : List UInt8 → Option PyStr
  | [] => some []
  | a :: b :: c :: d :: rest =>
      let bytes := if little then [d, c, b, a] else [a, b, c, d]
      let code := bytes.foldl (fun n byte => n * 256 + byte.toNat) 0
      if h : code < 0x110000 then (decodeUtf32 little rest).map (⟨code, h⟩ :: ·) else none
  | _ => none

/-- `bytes.decode(encoding, "surrogatepass")`; a byte order mark is dropped. -/
def decodeBytes (b : List UInt8) : Encoding → Option PyStr
  | .utf8 => decodeUtf8 b
  | .utf8Sig => decodeUtf8 (b.drop 3)
  | .utf16 => decodeUtf16 (b.head? = some 0xFF) (b.drop 2)
  | .utf16le => decodeUtf16 true b
  | .utf16be => decodeUtf16 false b
  | .utf32 => decodeUtf32 (b.head? = some 0xFF) (b.drop 4)
  | .utf32le => decodeUtf32 true b
  | .utf32be => decodeUtf32 false b

/-- A `UnicodeDecodeError`, or an error of the text. -/
inductive LoadBytesError where
  | unicode
  | text (e : LoadError)
  deriving DecidableEq, Repr

/-- Bytes are read in the encoding that is detected. -/
def loadsBytes (float : List Char → PyFloat) (b : List UInt8) : Except LoadBytesError Json :=
  match decodeBytes b (detectEncoding b) with
  | none => .error .unicode
  | some text =>
      match loads float text with
      | .error e => .error (.text e)
      | .ok v => .ok v

/-- `str.encode("utf-8")` of a text without surrogates. -/
def encodeUtf8 (text : List Char) : List UInt8 := text.flatMap String.utf8EncodeChar

section Ascii

variable {text : List Char}

/-- The byte of a character of ASCII. -/
def asciiByte (c : Char) : UInt8 := UInt8.ofNat c.toNat

variable {c : Char}

theorem toNat_asciiByte (ascii : c.toNat < 128) : (asciiByte c).toNat = c.toNat := by
  rw [asciiByte, UInt8.toNat_ofNat']
  omega

theorem encodeUtf8_of_ascii (ascii : ∀ c ∈ text, c.toNat < 128) :
    encodeUtf8 text = text.map asciiByte := by
  rw [encodeUtf8, ← List.flatMap_pure_eq_map]
  refine List.flatMap_congr fun c hc => ?_
  have size : c.utf8Size = 1 := Char.utf8Size_eq_one_iff.mpr
    (UInt32.le_iff_toNat_le.mpr (Nat.le_of_lt_succ (ascii c hc)))
  rw [String.utf8EncodeChar_eq_singleton size]
  exact congrArg (fun b => [b]) (UInt8.toNat_inj.mp (by
    rw [toNat_asciiByte (ascii c hc), UInt32.toNat_toUInt8]
    exact Nat.mod_eq_of_lt (Nat.lt_trans (ascii c hc) (by decide))))

theorem detectEncoding_of_ascii {b : List UInt8}
    (ascii : ∀ x ∈ b, x ≠ 0 ∧ x.toNat < 128) : detectEncoding b = .utf8 := by
  have unmarked : ∀ x xs, 128 ≤ x.toNat ∨ x = 0 → ¬(x :: xs) <+: b := by
    intro x xs hx prefixed
    obtain ⟨nonzero, small⟩ := ascii x (prefixed.subset List.mem_cons_self)
    rcases hx with large | zero
    · exact absurd small (not_lt.mpr large)
    · exact nonzero zero
  unfold detectEncoding
  rw [if_neg (not_or.mpr ⟨unmarked _ _ (.inr rfl), unmarked _ _ (.inl (by decide))⟩),
    if_neg (not_or.mpr ⟨unmarked _ _ (.inl (by decide)), unmarked _ _ (.inl (by decide))⟩),
    if_neg (unmarked _ _ (.inl (by decide)))]
  split
  · rename_i b₀ b₁ b₂ b₃ rest
    rw [if_neg (ascii b₀ (by simp)).1, if_neg (ascii b₁ (by simp)).1]
  · rename_i b₀ b₁
    rw [if_neg (ascii b₀ (by simp)).1, if_neg (ascii b₁ (by simp)).1]
  · rfl

theorem decodeUtf8_of_ascii (ascii : ∀ c ∈ text, c.toNat < 128) :
    decodeUtf8 (text.map asciiByte) = some (text.map CodePoint.ofChar) := by
  have read : ∀ before, (text.map asciiByte).foldlM Utf8.step ⟨0, 0, 0, before⟩ =
      some ⟨0, 0, 0, before ++ text.map CodePoint.ofChar⟩ := by
    induction text with
    | nil => simp
    | cons c text ih =>
        intro before
        obtain ⟨hc, ascii⟩ := List.forall_mem_cons.mp ascii
        have step : Utf8.step ⟨0, 0, 0, before⟩ (asciiByte c) =
            some ⟨0, 0, 0, before ++ [CodePoint.ofChar c]⟩ := by
          have point : Fin.ofNat 0x110000 c.toNat = CodePoint.ofChar c :=
            Fin.ext (Nat.mod_eq_of_lt (by omega))
          simp only [Utf8.step, toNat_asciiByte hc, if_pos, hc, point]
        rw [List.map_cons, List.foldlM_cons, step, List.map_cons]
        exact (ih ascii _).trans (by rw [List.append_assoc]; rfl)
  rw [decodeUtf8, read]
  rfl

/-- A printable text is read from its bytes. -/
theorem loadsBytes_encode (float : List Char → PyFloat) (printable : ∀ c ∈ text, Printable c) :
    loadsBytes float (encodeUtf8 text) =
      match loads float (text.map CodePoint.ofChar) with
      | .error e => .error (.text e)
      | .ok v => .ok v := by
  have ascii : ∀ c ∈ text, c.toNat < 128 := fun c hc => Nat.lt_trans (printable c hc).2 (by decide)
  have bytes : ∀ x ∈ text.map asciiByte, x ≠ 0 ∧ x.toNat < 128 := by
    intro x hx
    obtain ⟨c, hc, rfl⟩ := List.mem_map.mp hx
    have value := toNat_asciiByte (ascii c hc)
    refine ⟨fun zero => ?_, value ▸ ascii c hc⟩
    rw [zero] at value
    have := (printable c hc).1
    simp at value
    omega
  rw [loadsBytes, encodeUtf8_of_ascii ascii, detectEncoding_of_ascii bytes, decodeBytes,
    decodeUtf8_of_ascii ascii]

end Ascii

end Json

end PaymentsPlatform
