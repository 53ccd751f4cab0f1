import PaymentsPlatform.Acceptance.Checks
import PaymentsPlatform.Acceptance.Exposure
import PaymentsPlatform.Json.Bytes
import PaymentsPlatform.Json.Within

/-!
# Masking

`config/spark/jobs/payment_rules.py`: `mask_pii_fields` hashes the shopper ids of the two
sections of an envelope before it is written to bronze, and returns what is not JSON as
it is. It catches a `JSONDecodeError` and a `TypeError` and lets everything else escape
(`MaskFault`). The acceptance gate searches the whole text of a value, so that it also finds
what the masking leaves (`masked_bronze`). The `repr` of a container, the digest and the
recursion limit of the interpreter are parameters.
-/

namespace PaymentsPlatform.Bronze

open Acceptance (SpaceClass Warehouse Exposed ExposedMember checks exposed_object hasRawId
  hasRawId_dumps)
open CodePoint (ofChar)
open Json (loadsWithin)

def piiFields : List String := ["shopper_id"]

/-- The sections of an envelope that have a row. -/
def rowSections : List String := ["before", "after"]

/-- What is raised: a `RecursionError` for a text that opens too many containers, a
`ValueError` for an integer that is too long, an `AttributeError` for JSON that is no object,
a `UnicodeEncodeError` for a surrogate. -/
inductive MaskFault where
  | recursion
  | tooLong
  | notObject
  | unencodable
  deriving DecidableEq, Repr

def updateValue (key : String) (f : Json → Except MaskFault Json) (m : PyStr × Json) :
    Except MaskFault Json :=
  if m.1 = pyStr key then f m.2 else .ok m.2

/-- `members[key] = f(members[key])`, where the key is there. -/
def updateMember (key : String) (f : Json → Except MaskFault Json) :
    List (PyStr × Json) → Except MaskFault (List (PyStr × Json))
  | [] => .ok []
  | m :: members => do
      let value ← updateValue key f m
      let members ← updateMember key f members
      return (m.1, value) :: members

/-- The same for some keys, one after the other. -/
def updateMembers (keys : List String) (f : Json → Except MaskFault Json)
    (members : List (PyStr × Json)) : Except MaskFault (List (PyStr × Json)) :=
  keys.foldlM (fun members key => updateMember key f members) members

/-- A string in UTF-8, unless it has a surrogate. -/
def strEncode (s : PyStr) : Option (List UInt8) :=
  if s.all fun c => !c.isSurrogate then
    some (Json.encodeUtf8 (s.map fun c => Char.ofNat c.val))
  else none

section Mask

variable (float : List Char → PyFloat) (repr : Json → PyStr) (sha256 : List UInt8 → String)

/-- A value as text, the way Python writes it. -/
def str : Json → PyStr
  | .null => pyStr "None"
  | .bool b => pyStr (if b then "True" else "False")
  | .int n => (Json.intRepr n).map ofChar
  | .float .nan => pyStr "nan"
  | .float (.infinity negative) => pyStr (if negative then "-inf" else "inf")
  | .float x => (Json.floatRepr x).map ofChar
  | .string s => s
  | container => repr container

/-- The digest of a field that is not null. -/
def hashField : Json → Except MaskFault Json
  | .null => .ok .null
  | value =>
      match strEncode (str repr value) with
      | some raw => .ok (.string (pyStr (sha256 raw)))
      | none => .error .unencodable

/-- A section with its fields hashed, when it is an object. -/
def maskSection : Json → Except MaskFault Json
  | .object fields => do
      let fields ← updateMembers piiFields (hashField repr sha256) fields
      return .object fields
  | value => .ok value

/-- The envelope with its sections masked. -/
def maskEnvelope : Json → Except MaskFault Json
  | .object members => do
      let members ← updateMembers rowSections (maskSection repr sha256) members
      return .object members
  | _ => .error .notObject

variable (limit : Nat)

/-- The masking of any string. -/
def maskPiiFields : Option PyStr → Except MaskFault (Option PyStr)
  | none => .ok none
  | some value =>
      match loadsWithin float limit value with
      | .error .recursion => .error .recursion
      | .error (.text .decode) => .ok (some value)
      | .error (.text .tooLong) => .error .tooLong
      | .ok envelope =>
          match maskEnvelope repr sha256 envelope with
          | .ok masked => .ok (some ((Json.dumps .default masked).map ofChar))
          | .error e => .error e

/-- The text that Spark takes from Python. -/
def textOf (s : PyStr) : String := String.ofList (s.map fun c => Char.ofNat c.val)

/-- The masking as the stream calls it, on the texts of a column. -/
def maskUdf (value : Option String) : Except MaskFault (Option String) :=
  match maskPiiFields float repr sha256 limit (value.map pyStr) with
  | .ok stored => .ok (stored.map textOf)
  | .error e => .error e

end Mask

/-- An object with the values of some keys replaced. -/
def mapMembers (keys : List String) (g : Json → Json) (members : List (PyStr × Json)) :
    List (PyStr × Json) :=
  members.map fun m => (m.1, if m.1 ∈ keys.map pyStr then g m.2 else m.2)

/-- A section without the values of its fields. -/
def blankSection : Json → Json
  | .object fields => .object (mapMembers piiFields (fun _ => .null) fields)
  | value => value

/-- An envelope without the values of the fields in its sections. -/
def blankEnvelope (members : List (PyStr × Json)) : List (PyStr × Json) :=
  mapMembers rowSections blankSection members

/-- A value that has a raw id after it was masked: in a text that is not JSON, or in an
envelope beyond the fields of its sections. -/
def Leaks (float : List Char → PyFloat) (ws : SpaceClass) (value : String) : Prop :=
  (Json.loads float (pyStr value) = .error .decode ∧ hasRawId ws value.toList = true) ∨
    ∃ members, Json.loads float (pyStr value) = .ok (.object members) ∧
      Exposed (.object (blankEnvelope members))

variable {float : List Char → PyFloat} {repr : Json → PyStr} {sha256 : List UInt8 → String}
variable {key : String} {f : Json → Except MaskFault Json} {g : Json → Json}
variable {members masked : List (PyStr × Json)} {ws : SpaceClass} {limit : Nat}

/-- The result of one of two computations after the other. -/
theorem bind_eq_ok {ε α β : Type} {x : Except ε α} {next : α → Except ε β} {b : β} :
    x >>= next = .ok b ↔ ∃ a, x = .ok a ∧ next a = .ok b := by
  cases x with
  | error e => exact ⟨nofun, fun ⟨_, h, _⟩ => by cases h⟩
  | ok a => exact ⟨fun h => ⟨a, rfl, h⟩, fun ⟨_, h, hb⟩ => by cases h; exact hb⟩

theorem updateMember_cons {m : PyStr × Json} :
    updateMember key f (m :: members) = .ok masked ↔
      ∃ value, updateValue key f m = .ok value ∧
        ∃ rest, updateMember key f members = .ok rest ∧ (m.1, value) :: rest = masked := by
  rw [updateMember, bind_eq_ok]
  refine exists_congr fun value => and_congr_right fun _ => ?_
  rw [bind_eq_ok]
  exact exists_congr fun rest => and_congr_right fun _ => ⟨Except.ok.inj, congrArg Except.ok⟩

/-- A predicate that cannot tell an update from another holds of the same members. -/
theorem exists_updateMember {P : PyStr → Json → Prop} (h : updateMember key f members = .ok masked)
    (agree : ∀ v w, f v = .ok w → (P (pyStr key) w ↔ P (pyStr key) (g v))) :
    (∃ m ∈ masked, P m.1 m.2) ↔
      ∃ m ∈ members, P m.1 (if m.1 = pyStr key then g m.2 else m.2) := by
  induction members generalizing masked with
  | nil =>
      obtain rfl := Except.ok.inj h
      simp
  | cons m members ih =>
      obtain ⟨value, hvalue, rest, hrest, rfl⟩ := updateMember_cons.mp h
      have same : P m.1 value ↔ P m.1 (if m.1 = pyStr key then g m.2 else m.2) := by
        unfold updateValue at hvalue
        split at hvalue
        · rename_i hkey
          rw [if_pos hkey, hkey]
          exact agree m.2 value hvalue
        · rename_i hkey
          rw [if_neg hkey, Except.ok.inj hvalue]
      rw [List.exists_mem_cons_iff, List.exists_mem_cons_iff, same, ih hrest]

theorem exists_mapMembers {keys : List String} {P : PyStr → Json → Prop} :
    (∃ m ∈ mapMembers keys g members, P m.1 m.2) ↔
      ∃ m ∈ members, P m.1 (if m.1 ∈ keys.map pyStr then g m.2 else m.2) := by
  constructor
  · rintro ⟨_, hmem, h⟩
    obtain ⟨m, hm, rfl⟩ := List.mem_map.mp hmem
    exact ⟨m, hm, h⟩
  · rintro ⟨m, hm, h⟩
    exact ⟨_, List.mem_map_of_mem hm, h⟩

theorem exists_updateMembers {keys : List String} (distinct : (keys.map pyStr).Nodup)
    {P : PyStr → Json → Prop} (h : updateMembers keys f members = .ok masked)
    (agree : ∀ key ∈ keys, ∀ v w, f v = .ok w → (P (pyStr key) w ↔ P (pyStr key) (g v))) :
    (∃ m ∈ masked, P m.1 m.2) ↔ ∃ m ∈ mapMembers keys g members, P m.1 m.2 := by
  rw [exists_mapMembers]
  induction keys generalizing members with
  | nil =>
      obtain rfl := Except.ok.inj h
      simp
  | cons key keys ih =>
      rw [List.map_cons, List.nodup_cons] at distinct
      obtain ⟨middle, hmiddle, hrest⟩ := bind_eq_ok.mp (show _ >>= _ = _ from h)
      rw [ih distinct.2 hrest fun other hother => agree other (List.mem_cons_of_mem key hother)]
      have first : ∀ v w, f v = .ok w →
          (P (pyStr key) (if pyStr key ∈ keys.map pyStr then g w else w) ↔
            P (pyStr key) (if pyStr key ∈ keys.map pyStr then g (g v) else g v)) := by
        intro v w hw
        rw [if_neg distinct.1, if_neg distinct.1]
        exact agree key List.mem_cons_self v w hw
      rw [exists_updateMember (P := fun k v => P k (if k ∈ keys.map pyStr then g v else v))
        hmiddle first]
      refine exists_congr fun m => and_congr_right fun _ => ?_
      by_cases hkey : m.1 = pyStr key
      · simp [hkey, distinct.1]
      · simp [hkey]

theorem null_hides (name : PyStr) : ¬ExposedMember (name, .null) := by
  rintro (⟨_, digit⟩ | exposed)
  · cases digit
  · cases exposed

/-- A hashed field exposes nothing. -/
theorem hashField_hides {v w : Json} (h : hashField repr sha256 v = .ok w) (name : PyStr) :
    ¬ExposedMember (name, w) := by
  have hidden : ∀ s, ¬ExposedMember (name, .string s) := by
    rintro s (⟨_, digit⟩ | exposed)
    · cases digit
    · cases exposed
  unfold hashField at h
  split at h
  · rw [← Except.ok.inj h]
    exact null_hides name
  · split at h
    · rw [← Except.ok.inj h]
      exact hidden _
    · cases h

/-- A masked section exposes what it does without the values of its fields. -/
theorem maskSection_exposed {v w : Json} (h : maskSection repr sha256 v = .ok w) (name : PyStr) :
    ExposedMember (name, w) ↔ ExposedMember (name, blankSection v) := by
  cases v with
  | object fields =>
      obtain ⟨masked, hmasked, hw⟩ := bind_eq_ok.mp (show _ >>= _ = _ from h)
      obtain rfl := Except.ok.inj hw
      have distinct : (piiFields.map pyStr).Nodup := List.nodup_singleton _
      have hidden : ∀ field ∈ piiFields, ∀ v w, hashField repr sha256 v = .ok w →
          (ExposedMember (pyStr field, w) ↔ ExposedMember (pyStr field, .null)) :=
        fun field _ v w hw => iff_of_false (hashField_hides hw _) (null_hides _)
      have same : Exposed (.object masked) ↔ Exposed (blankSection (.object fields)) := by
        rw [blankSection, exposed_object, exposed_object]
        exact exists_updateMembers (P := fun k v => ExposedMember (k, v)) distinct hmasked hidden
      simp only [ExposedMember, same]
      rfl
  | _ => rw [← Except.ok.inj h]; rfl

/-- So does a masked envelope. -/
theorem maskEnvelope_exposed {t : Json} (h : maskEnvelope repr sha256 (.object members) = .ok t) :
    Exposed t ↔ Exposed (.object (blankEnvelope members)) := by
  obtain ⟨masked, hmasked, ht⟩ := bind_eq_ok.mp (show _ >>= _ = _ from h)
  obtain rfl := Except.ok.inj ht
  have distinct : (rowSections.map pyStr).Nodup := by decide
  rw [exposed_object, exposed_object]
  exact exists_updateMembers (P := fun k v => ExposedMember (k, v)) distinct hmasked
    fun name _ v w hw => maskSection_exposed hw _

/-- What is returned is the value itself, or the masked envelope. -/
theorem maskPiiFields_cases {value : PyStr} {out : Option PyStr}
    (h : maskPiiFields float repr sha256 limit (some value) = .ok out) :
    (loadsWithin float limit value = .error (.text .decode) ∧ out = some value) ∨
      ∃ members t, loadsWithin float limit value = .ok (.object members) ∧
        maskEnvelope repr sha256 (.object members) = .ok t ∧
        out = some ((Json.dumps .default t).map ofChar) := by
  rw [maskPiiFields] at h
  split at h
  · cases h
  · rename_i refused
    exact .inl ⟨refused, (Except.ok.inj h).symm⟩
  · cases h
  · rename_i envelope parses
    cases envelope with
    | object members =>
        split at h
        · rename_i t hmask
          exact .inr ⟨members, t, parses, hmask, (Except.ok.inj h).symm⟩
        · cases h
    | _ => cases h

@[simp] theorem textOf_ofChar (text : List Char) :
    textOf (text.map ofChar) = String.ofList text := by
  rw [textOf, List.map_map]
  refine congrArg String.ofList ((List.map_congr_left fun c _ => ?_).trans (List.map_id text))
  exact Char.ofNat_toNat c

@[simp] theorem textOf_pyStr (s : String) : textOf (pyStr s) = s := by
  rw [pyStr, textOf_ofChar, String.ofList_toList]

/-- What bronze stores is the text itself, or the one of the masked envelope. -/
theorem maskUdf_cases {value : String} {stored : Option String}
    (h : maskUdf float repr sha256 limit (some value) = .ok stored) :
    (Json.loads float (pyStr value) = .error .decode ∧ stored = some value) ∨
      ∃ members t, Json.loads float (pyStr value) = .ok (.object members) ∧
        maskEnvelope repr sha256 (.object members) = .ok t ∧
        stored = some (String.ofList (Json.dumps .default t)) := by
  rw [maskUdf, Option.map_some] at h
  split at h
  · rename_i out hout
    obtain rfl := Except.ok.inj h
    rcases maskPiiFields_cases hout with ⟨refused, rfl⟩ | ⟨members, t, parses, hmask, rfl⟩
    · exact .inl ⟨Json.loads_of_refused refused, by simp⟩
    · exact .inr ⟨members, t, Json.loads_of_loadsWithin parses, hmask, by simp⟩
  · cases h

/-- The pattern of the gate, on a value of bronze. -/
def Flagged (ws : SpaceClass) (stored : Option String) : Prop :=
  ∃ text ∈ stored, hasRawId ws text.toList = true

/-- A masked value is flagged exactly when it leaks. -/
theorem flagged_masked {value stored : Option String}
    (h : maskUdf float repr sha256 limit value = .ok stored) :
    Flagged ws stored ↔ ∃ text ∈ value, Leaks float ws text := by
  cases value with
  | none =>
      obtain rfl := Except.ok.inj h
      simp [Flagged]
  | some value =>
      rcases maskUdf_cases h with ⟨hloads, rfl⟩ | ⟨members, t, hloads, hmask, rfl⟩
      · simp [Flagged, Leaks, hloads]
      · simp [Flagged, Leaks, hloads, hasRawId_dumps, maskEnvelope_exposed hmask]

/-- The check passes exactly when no value of bronze is flagged. -/
theorem count_eq_zero {check : Acceptance.Check} (hcheck : check ∈ checks ws)
    (hname : check.name = "no_unhashed_pii_in_bronze") (w : Warehouse) :
    check.count w = 0 ↔ ∀ stored ∈ w.bronze, ¬Flagged ws stored := by
  have counted : check.count w = Acceptance.countWhere (fun value : Option String =>
      value.map fun text => hasRawId ws text.toList) w.bronze := by
    simp only [checks, List.mem_cons, List.not_mem_nil, or_false] at hcheck
    rcases hcheck with rfl | rfl | rfl | rfl | rfl | rfl | rfl | rfl | rfl | rfl | rfl
    all_goals first | rfl | exact absurd hname (by decide)
  rw [counted, Acceptance.countWhere, List.countP_eq_zero]
  refine forall_congr' fun stored => forall_congr' fun _ => not_congr ?_
  cases stored with
  | none => simp [Flagged, Sql.Truth.holds]
  | some text => simp [Flagged, Sql.Truth.holds]

theorem forall_not_of_forall₂ {α β : Type} {P : α → Prop} {Q : β → Prop} {xs : List α}
    {ys : List β} (h : List.Forall₂ (fun x y => Q y ↔ P x) xs ys) :
    (∀ y ∈ ys, ¬Q y) ↔ ∀ x ∈ xs, ¬P x := by
  induction h with
  | nil => simp
  | cons h _ ih => simp [h, ih]

/-- The gate on a bronze table of masked values: the pattern flags exactly the values that
leak, and the check passes exactly when there are none. -/
theorem masked_bronze (ws : SpaceClass) (float : List Char → PyFloat) (repr : Json → PyStr)
    (sha256 : List UInt8 → String) (limit : Nat) (values : List (Option String)) (w : Warehouse)
    (masked : List.Forall₂ (fun value stored => maskUdf float repr sha256 limit value = .ok stored)
      values w.bronze) :
    List.Forall₂ (fun value stored => Flagged ws stored ↔ ∃ text ∈ value, Leaks float ws text)
      values w.bronze ∧
    ∀ check ∈ checks ws, check.name = "no_unhashed_pii_in_bronze" →
      (check.count w = 0 ↔ ∀ value ∈ values, ¬∃ text ∈ value, Leaks float ws text) := by
  have pointwise : List.Forall₂ (fun value stored =>
      Flagged ws stored ↔ ∃ text ∈ value, Leaks float ws text) values w.bronze :=
    masked.imp fun _ _ h => flagged_masked h
  exact ⟨pointwise, fun check hcheck hname =>
    (count_eq_zero hcheck hname w).trans (forall_not_of_forall₂ pointwise)⟩

/-- The white space of ASCII. -/
def asciiSpace : SpaceClass where
  mem c := c ∈ [' ', '\t', '\n', '\x0b', '\x0c', '\r']
  space := by decide
  graphic c low high := by
    refine decide_eq_false fun h => absurd low ?_
    simp only [List.mem_cons, List.not_mem_nil, or_false] at h
    rcases h with rfl | rfl | rfl | rfl | rfl | rfl <;> decide

/-- The digest of `1`. -/
def digestOfOne (_ : List UInt8) : String :=
  "6b86b273ff34fce19d6b804eff5a3f5747ada4eaa22f1d49c01e52ddb7875b4b"

/-- The insert of shopper 1. -/
def sampleInsert : String := "\x7b\"after\": \x7b\"shopper_id\": 1\x7d\x7d"

/-- What bronze has of it. -/
def maskedInsert : String :=
  "\x7b\"after\": \x7b\"shopper_id\": \"" ++ digestOfOne [] ++ "\"\x7d\x7d"

theorem masked_bronze_insert :
    List.Forall₂ (fun value stored => Flagged asciiSpace stored ↔
      ∃ text ∈ value, Leaks (fun _ => .nan) asciiSpace text)
      [some sampleInsert] [some maskedInsert] ∧
    ∀ check ∈ checks asciiSpace, check.name = "no_unhashed_pii_in_bronze" →
      (check.count ⟨[some maskedInsert], [], []⟩ = 0 ↔
        ∀ value ∈ [some sampleInsert], ¬∃ text ∈ value, Leaks (fun _ => .nan) asciiSpace text) :=
  masked_bronze asciiSpace (fun _ => .nan) (fun _ => []) digestOfOne 1000 [some sampleInsert]
    ⟨[some maskedInsert], [], []⟩ (.cons (by decide +kernel) .nil)

/-- The insert of shopper 1 under another key. -/
def nestedInsert : String :=
  "\x7b\"payload\": \x7b\"after\": \x7b\"shopper_id\": 1\x7d\x7d\x7d"

/-- The insert of shopper 1 without its last character. -/
def truncatedInsert : String := "\x7b\"after\": \x7b\"shopper_id\": 1\x7d"

/-- Both are stored as they are, and the pattern matches them. -/
theorem inserts_flagged :
    (maskUdf (fun _ => .nan) (fun _ => []) digestOfOne 1000 (some nestedInsert) =
        .ok (some nestedInsert) ∧ hasRawId asciiSpace nestedInsert.toList = true) ∧
      maskUdf (fun _ => .nan) (fun _ => []) digestOfOne 1000 (some truncatedInsert) =
        .ok (some truncatedInsert) ∧ hasRawId asciiSpace truncatedInsert.toList = true := by
  decide +kernel

end PaymentsPlatform.Bronze
