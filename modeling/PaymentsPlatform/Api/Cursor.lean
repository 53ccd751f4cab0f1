import PaymentsPlatform.Api.Handlers
import PaymentsPlatform.Encoding.Base64
import PaymentsPlatform.Json.Bytes
import PaymentsPlatform.Json.Surrogates
import PaymentsPlatform.Time.IsoFormat

/-!
# The cursor codec

`api/src/models.py`: a cursor is an object of its three fields, as JSON in UTF-8 in
Base64. `decode_cursor` reads whatever a client sends: the hour has to be a timestamp, the
country code and the payment method are what the JSON has there. An encoded cursor is
read back as itself (`decodeCursor_encodeCursor`).
-/

namespace PaymentsPlatform.Api

open Json (joinPairs joinedMembers stringMembers)

/-- The members of the payload. -/
def Cursor.payload (c : Cursor) : List (PyStr × PyStr) :=
  [(pyStr "h", pyStr c.paymentHour.isoformat), (pyStr "c", pyStr c.countryCode),
   (pyStr "m", pyStr c.paymentMethod)]

/-- The token of a cursor. -/
def encodeCursor (c : Cursor) : String :=
  let text := Json.dumps .compact (.object (Json.stringMembers c.payload))
  String.ofList (Base64.encode (Json.encodeUtf8 text))

/-- The exceptions that become a `CursorError`. -/
inductive CursorFault where
  | notAscii
  | base64
  | json (e : Json.LoadBytesError)
  | notSubscriptable
  | missing (key : String)
  | notString
  | isoformat
  deriving DecidableEq, Repr

/-- What `decode_cursor` returns. -/
structure RawCursor where
  paymentHour : DateTime
  countryCode : Json
  paymentMethod : Json

/-- `payload[key]`: a `TypeError` without an object, a `KeyError` without the key. -/
def subscript (payload : Json) (key : String) : Except CursorFault Json :=
  match payload with
  | .object members =>
      match members.find? fun m => m.1 = pyStr key with
      | some m => .ok m.2
      | none => .error (.missing key)
  | _ => .error .notSubscriptable

/-- The hour, which has to be the text of a timestamp. -/
def readHour (value : Json) : Except CursorFault DateTime :=
  match value with
  | .string s =>
      match DateTime.fromIsoformat (s.map Json.ascii) with
      | some t => .ok t
      | none => .error .isoformat
  | _ => .error .notString

/-- `token.encode("ascii")` and `urlsafe_b64decode`. -/
def tokenBytes (token : String) : Except CursorFault (List UInt8) :=
  if token.toList.all fun c => c.toNat < 128 then
    match Base64.decode token.toList with
    | some raw => .ok raw
    | none => .error .base64
  else .error .notAscii

section Decode

variable (float : List Char → PyFloat)

/-- What a token is decoded to; only the hour is looked at. -/
def decodeCursor (token : String) : Except CursorFault RawCursor := do
  let raw ← tokenBytes token
  let payload ← (Json.loadsBytes float raw).mapError .json
  let hour ← subscript payload "h"
  let paymentHour ← readHour hour
  let countryCode ← subscript payload "c"
  let paymentMethod ← subscript payload "m"
  return { paymentHour := paymentHour, countryCode := countryCode, paymentMethod := paymentMethod }

/-- The text of a string without surrogates. -/
def textOf : Json → Option String
  | .string s =>
      if s.all fun c => !c.isSurrogate then
        some (String.ofList (s.map fun c => Char.ofNat c.val))
      else none
  | _ => none

/-- The cursor, when the query can bind its fields as text. -/
def RawCursor.typed (c : RawCursor) : Option Cursor :=
  match textOf c.countryCode, textOf c.paymentMethod with
  | some country, some method => some ⟨c.paymentHour, country, method⟩
  | _, _ => none

/-- The codec of the pages, with the texts of the exceptions. A cursor that is decoded but
has no text in the place of the code or the method gets no page here. -/
def cursorCodec (text : CursorFault → String) : CursorCodec where
  encode := encodeCursor
  decode token :=
    match decodeCursor float token with
    | .error fault => .error ("malformed cursor: " ++ text fault)
    | .ok raw =>
        match raw.typed with
        | some c => .ok c
        | none => .error "mistyped cursor"

end Decode

/-- A cursor of any strings, with surrogates or without. -/
structure PyCursor where
  paymentHour : DateTime
  countryCode : PyStr
  paymentMethod : PyStr

namespace PyCursor

def payload (c : PyCursor) : List (PyStr × PyStr) :=
  [(pyStr "h", pyStr c.paymentHour.isoformat), (pyStr "c", c.countryCode),
   (pyStr "m", c.paymentMethod)]

/-- The token of a cursor. -/
def encode (c : PyCursor) : String :=
  let text := Json.dumps .compact (.object (stringMembers c.payload))
  String.ofList (Base64.encode (Json.encodeUtf8 text))

/-- The cursor as `decode_cursor` returns it. -/
def raw (c : PyCursor) : RawCursor where
  paymentHour := c.paymentHour
  countryCode := .string c.countryCode
  paymentMethod := .string c.paymentMethod

/-- The cursor with the pairs of surrogates of its strings joined. -/
def joined (c : PyCursor) : PyCursor where
  paymentHour := c.paymentHour
  countryCode := joinPairs c.countryCode
  paymentMethod := joinPairs c.paymentMethod

end PyCursor

variable {float : List Char → PyFloat} {c : Cursor}

/-- What is decoded of an encoded cursor. -/
def Cursor.raw (c : Cursor) : RawCursor where
  paymentHour := c.paymentHour
  countryCode := .string (pyStr c.countryCode)
  paymentMethod := .string (pyStr c.paymentMethod)

theorem textOf_pyStr (s : String) : textOf (.string (pyStr s)) = some s := by
  have scalar : (pyStr s).all (fun c => !c.isSurrogate) = true :=
    List.all_eq_true.mpr fun c hc => by rw [Json.scalar_pyStr s c hc]; rfl
  rw [textOf, if_pos scalar, pyStr, List.map_map]
  refine congrArg some ?_
  have same : s.toList.map ((fun c : CodePoint => Char.ofNat c.val) ∘ CodePoint.ofChar) =
      s.toList := by
    refine (List.map_congr_left fun c _ => ?_).trans (List.map_id _)
    exact Char.ofNat_toNat c
  rw [same, String.ofList_toList]

theorem typed_raw (c : Cursor) : c.raw.typed = some c := by
  simp only [RawCursor.typed, Cursor.raw, textOf_pyStr]

/-- The text of a timestamp is in ASCII, and is read back. -/
theorem readHour_isoformat (t : DateTime) : readHour (.string (pyStr t.isoformat)) = .ok t := by
  have ascii : ∀ c ∈ t.isoformat.toList, c.toNat < 128 := by
    intro c hc
    by_contra large
    have digit : c.isDigit = false := by
      rw [Char.isDigit, Bool.and_eq_false_iff]
      refine .inr (decide_eq_false fun h => large ?_)
      exact lt_of_le_of_lt (UInt32.le_iff_toNat_le.mp h) (by decide)
    refine DateTime.not_mem_isoformat digit (fun separator => large ?_) hc
    simp only [List.mem_cons, List.not_mem_nil, or_false] at separator
    rcases separator with rfl | rfl | rfl | rfl | rfl <;> decide
  have chars : t.isoformat.toList = t.isoformatChars := String.toList_ofList
  have same : (pyStr t.isoformat).map Json.ascii = t.isoformatChars := by
    rw [pyStr, List.map_map, chars]
    rw [chars] at ascii
    exact (List.map_congr_left fun c hc => Json.ascii_ofChar (ascii c hc)).trans (List.map_id _)
  simp only [readHour, same, DateTime.fromIsoformat_isoformat]

theorem tokenBytes_encode (raw : List UInt8) :
    tokenBytes (String.ofList (Base64.encode raw)) = .ok raw := by
  have ascii : (Base64.encode raw).all (fun c => c.toNat < 128) = true :=
    List.all_eq_true.mpr fun c hc => decide_eq_true (Base64.ascii_encode hc)
  simp only [tokenBytes, String.toList_ofList, if_pos ascii, Base64.decode_encode]

theorem joinPairs_pyStr (s : String) : joinPairs (pyStr s) = pyStr s :=
  Json.joinPairs_eq_self.mpr (Json.scalar_pyStr s).unjoined

theorem joinedMembers_payload (c : PyCursor) :
    joinedMembers c.payload = c.joined.payload := by
  simp only [joinedMembers, PyCursor.payload, PyCursor.joined, List.map_cons, List.map_nil,
    joinPairs_pyStr]

theorem loadsBytes_encoded (float : List Char → PyFloat) (c : PyCursor) :
    Json.loadsBytes float (Json.encodeUtf8
      (Json.dumps .compact (.object (stringMembers c.payload)))) =
        .ok (.object (stringMembers c.joined.payload)) := by
  have distinct : [pyStr "h", pyStr "c", pyStr "m"].Nodup := by decide
  have keys : (c.payload.map Prod.fst).Nodup := distinct
  have scalar : ∀ m ∈ c.payload, Json.Scalar m.1 := by
    simp [PyCursor.payload, Json.scalar_pyStr]
  rw [Json.loadsBytes_encode float fun _ => Json.printable_compact _,
    Json.loads_dumps_joined float keys scalar, joinedMembers_payload]

theorem subscript_members (c : PyCursor) :
    subscript (.object (stringMembers c.payload)) "h" =
        .ok (.string (pyStr c.paymentHour.isoformat)) ∧
      subscript (.object (stringMembers c.payload)) "c" = .ok (.string c.countryCode) ∧
      subscript (.object (stringMembers c.payload)) "m" = .ok (.string c.paymentMethod) := by
  have distinct : pyStr "h" ≠ pyStr "c" ∧ pyStr "h" ≠ pyStr "m" ∧ pyStr "c" ≠ pyStr "m" := by
    decide
  simp [subscript, stringMembers, PyCursor.payload, distinct]

/-- Decoding inverts encoding but for the pairs. -/
theorem decodeCursor_encode (float : List Char → PyFloat) (c : PyCursor) :
    decodeCursor float c.encode = .ok c.joined.raw := by
  obtain ⟨hour, country, method⟩ := subscript_members c.joined
  have encoded := loadsBytes_encoded float c
  simp only [decodeCursor, PyCursor.encode, tokenBytes_encode, encoded, Except.mapError,
    bind, Except.bind, hour, readHour_isoformat, country, method]
  rfl

/-- A cursor of texts is encoded as one of strings. -/
theorem encode_of_cursor (c : Cursor) :
    (PyCursor.mk c.paymentHour (pyStr c.countryCode) (pyStr c.paymentMethod)).encode =
      encodeCursor c := rfl

/-- Decoding inverts encoding. -/
theorem decodeCursor_encodeCursor (float : List Char → PyFloat) (c : Cursor) :
    decodeCursor float (encodeCursor c) = .ok c.raw := by
  rw [← encode_of_cursor, decodeCursor_encode, PyCursor.joined, joinPairs_pyStr, joinPairs_pyStr]
  rfl

theorem decode_encode_cursorCodec (float : List Char → PyFloat) (text : CursorFault → String)
    (c : Cursor) :
    (cursorCodec float text).decode ((cursorCodec float text).encode c) = .ok c := by
  simp only [cursorCodec, decodeCursor_encodeCursor, typed_raw]

end PaymentsPlatform.Api
