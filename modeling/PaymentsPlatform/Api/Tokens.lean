import PaymentsPlatform.Api.Cursor
import PaymentsPlatform.Bronze.Faults

/-!
# Cursors and tokens of any strings

The codec of `api/src/models.py` on all that Python takes for a `Cursor` or a token. A
cursor is encoded whatever its strings are, and comes back with their pairs of surrogates
joined (`decode_encode_iff`). A token may be any string; `json.loads` reads what it encodes
within the recursion limit, whose `RecursionError` is not caught, and nothing looks at the
kinds of the code and the method (`decodeToken_genuine_iff`).
-/

namespace PaymentsPlatform.Api

open Json (Unjoined)

variable {float : List Char → PyFloat} {c : PyCursor}

section RoundTrip

theorem joined_raw_iff (c : PyCursor) :
    c.joined.raw = c.raw ↔ Unjoined c.countryCode ∧ Unjoined c.paymentMethod := by
  rw [← Json.joinPairs_eq_self, ← Json.joinPairs_eq_self]
  simp [PyCursor.raw, PyCursor.joined]

/-- Decoding the token of a cursor gives it with its pairs of surrogates joined, and so gives
the cursor exactly when its strings have none; the token is URL-safe. -/
theorem decode_encode_iff (float : List Char → PyFloat) (c : PyCursor) :
    decodeCursor float c.encode = .ok c.joined.raw ∧
      (decodeCursor float c.encode = .ok c.raw ↔
        Unjoined c.countryCode ∧ Unjoined c.paymentMethod) ∧
      ∀ x ∈ c.encode.toList, Base64.UrlSafe x := by
  have decoded := decodeCursor_encode float c
  refine ⟨decoded, ?_, ?_⟩
  · rw [decoded, Except.ok.injEq]
    exact joined_raw_iff c
  · intro x hx
    rw [PyCursor.encode, String.toList_ofList] at hx
    exact Base64.urlSafe_encode hx

/-- The cursor of a code point that is written as two. -/
def pairCursor : PyCursor := ⟨.midnight .sample, [0xD83D, 0xDE00], []⟩

/-- It does not come back as itself. -/
theorem decode_encode_pair :
    decodeCursor (fun _ => .nan) pairCursor.encode = .ok pairCursor.joined.raw ∧
      pairCursor.joined.countryCode = [0x1F600] ∧ pairCursor.joined.raw ≠ pairCursor.raw := by
  refine ⟨decodeCursor_encode _ _, by decide, fun same => ?_⟩
  exact absurd ((joined_raw_iff pairCursor).mp same) (by decide)

end RoundTrip

section Decode

/-- The `RecursionError` that `decode_cursor` lets through, and the `CursorError` of what it
catches. -/
inductive DecodeRaise where
  | recursion
  | cursorError (fault : CursorFault)
  deriving DecidableEq, Repr

variable (float : List Char → PyFloat) (limit : Nat)

/-- The JSON of some bytes, read within the recursion limit. -/
def loadsRaw (b : List UInt8) : Except DecodeRaise Json :=
  match Json.decodeBytes b (Json.detectEncoding b) with
  | none => .error (.cursorError (.json .unicode))
  | some text =>
      match Json.loadsWithin float limit text with
      | .error .recursion => .error .recursion
      | .error (.text e) => .error (.cursorError (.json (.text e)))
      | .ok v => .ok v

/-- `token.encode("ascii")` and `urlsafe_b64decode`, of any string. -/
def rawBytes (token : PyStr) : Except CursorFault (List UInt8) :=
  if token.all fun c => c.val < 128 then
    match Base64.decode (token.map Json.ascii) with
    | some raw => .ok raw
    | none => .error .base64
  else .error .notAscii

/-- The payload of a token. -/
def payloadOf (token : PyStr) : Except DecodeRaise Json :=
  match rawBytes token with
  | .error fault => .error (.cursorError fault)
  | .ok raw => loadsRaw float limit raw

/-- The cursor of a payload. -/
def cursorOf (payload : Json) : Except CursorFault RawCursor := do
  let hour ← subscript payload "h"
  let paymentHour ← readHour hour
  let countryCode ← subscript payload "c"
  let paymentMethod ← subscript payload "m"
  return { paymentHour := paymentHour, countryCode := countryCode, paymentMethod := paymentMethod }

/-- What any string is decoded to. -/
def decodeToken (token : PyStr) : Except DecodeRaise RawCursor :=
  match payloadOf float limit token with
  | .error e => .error e
  | .ok payload => (cursorOf payload).mapError .cursorError

def IsString (v : Json) : Prop := ∃ s, v = .string s

/-- The payload has an hour that is read, a code and a method, not both of them strings. -/
structure Mistyped (payload : Json) : Prop where
  hour : ∃ value t, subscript payload "h" = .ok value ∧ readHour value = .ok t
  fields : ∃ country method, subscript payload "c" = .ok country ∧
    subscript payload "m" = .ok method ∧ ¬(IsString country ∧ IsString method)

/-- What is read of the token opens no more containers than the limit, and its payload is
not mistyped. -/
structure GenuineToken (token : PyStr) : Prop where
  shallow : payloadOf float limit token ≠ .error .recursion
  typed : ∀ payload, payloadOf float limit token = .ok payload → ¬Mistyped payload

end Decode

section Genuine

variable {limit : Nat} {payload v : Json} {raw : RawCursor}

theorem cursorOf_eq_ok : cursorOf payload = .ok raw ↔
    ∃ value, subscript payload "h" = .ok value ∧ readHour value = .ok raw.paymentHour ∧
      subscript payload "c" = .ok raw.countryCode ∧
      subscript payload "m" = .ok raw.paymentMethod := by
  unfold cursorOf
  simp only [Bronze.bind_eq_ok]
  constructor
  · rintro ⟨value, hour, t, ht, country, hcountry, method, hmethod, same⟩
    obtain rfl := Except.ok.inj same
    exact ⟨value, hour, ht, hcountry, hmethod⟩
  · rintro ⟨value, hour, ht, hcountry, hmethod⟩
    exact ⟨value, hour, _, ht, _, hcountry, _, hmethod, rfl⟩

theorem not_mistyped_iff (h : cursorOf payload = .ok raw) :
    ¬Mistyped payload ↔ ∃ c : PyCursor, raw = c.raw := by
  obtain ⟨value, hour, ht, hcountry, hmethod⟩ := cursorOf_eq_ok.mp h
  constructor
  · intro typed
    by_contra other
    refine typed ⟨⟨value, _, hour, ht⟩, _, _, hcountry, hmethod, ?_⟩
    rintro ⟨⟨country, hc⟩, method, hm⟩
    refine other ⟨⟨raw.paymentHour, country, method⟩, ?_⟩
    cases raw
    simp_all [PyCursor.raw]
  · rintro ⟨c, rfl⟩ ⟨_, country, method, hcountry', hmethod', untyped⟩
    obtain rfl := Except.ok.inj (hcountry.symm.trans hcountry')
    obtain rfl := Except.ok.inj (hmethod.symm.trans hmethod')
    exact untyped ⟨⟨_, rfl⟩, _, rfl⟩

/-- A mistyped payload is accepted. -/
theorem Mistyped.accepted (h : Mistyped payload) : ∃ raw, cursorOf payload = .ok raw := by
  obtain ⟨⟨value, t, hour, ht⟩, country, method, hcountry, hmethod, -⟩ := h
  exact ⟨⟨t, country, method⟩, cursorOf_eq_ok.mpr ⟨value, hour, ht, hcountry, hmethod⟩⟩

/-- Decoding a token makes a `CursorError` or a cursor of strings exactly when the token is
genuine. -/
theorem decodeToken_genuine_iff (float : List Char → PyFloat) (limit : Nat) (token : PyStr) :
    ((∃ fault, decodeToken float limit token = .error (.cursorError fault)) ∨
      ∃ c : PyCursor, decodeToken float limit token = .ok c.raw) ↔
        GenuineToken float limit token := by
  unfold decodeToken
  cases hpayload : payloadOf float limit token with
  | error e =>
      cases e with
      | recursion =>
          refine iff_of_false ?_ fun genuine => genuine.shallow hpayload
          rintro (⟨fault, h⟩ | ⟨c, h⟩) <;> cases h
      | cursorError fault =>
          refine iff_of_true (.inl ⟨fault, rfl⟩) ⟨?_, fun payload h => ?_⟩
          · rw [hpayload]
            rintro ⟨⟩
          · rw [hpayload] at h
            cases h
  | ok payload =>
      have genuine_iff : GenuineToken float limit token ↔ ¬Mistyped payload := by
        refine ⟨fun genuine => genuine.typed payload hpayload, fun typed => ⟨?_, fun _ h => ?_⟩⟩
        · rw [hpayload]
          rintro ⟨⟩
        · obtain rfl := Except.ok.inj (hpayload.symm.trans h)
          exact typed
      rw [genuine_iff]
      cases hcursor : cursorOf payload with
      | error fault =>
          have raised : (cursorOf payload).mapError DecodeRaise.cursorError =
              .error (.cursorError fault) := by rw [hcursor]; rfl
          refine iff_of_true (.inl ⟨fault, raised⟩) fun mistyped => ?_
          obtain ⟨raw, accepted⟩ := mistyped.accepted
          rw [hcursor] at accepted
          cases accepted
      | ok raw =>
          rw [not_mistyped_iff hcursor]
          simp [hcursor, Except.mapError]

/-- The token of a null code and a numeric method is accepted. -/
theorem decodeToken_mistyped : ∃ t, decodeToken (fun _ => .nan) 1000
    (pyStr "eyJoIjoiMjAyNi0wMS0wMSIsImMiOm51bGwsIm0iOjd9") = .ok ⟨t, .null, .int 7⟩ :=
  ⟨_, rfl⟩

end Genuine

end PaymentsPlatform.Api
