import PaymentsPlatform.Bronze.Masking
import PaymentsPlatform.Json.Distinct

/-!
# What masking changes

On the text of an object whose numbers are 64-bit integers and whose strings are
well-formed, the output of `mask_pii_fields` parses to the same tree with the ids of the two
sections hashed, so that it depends on an id through its digest only (`masks_exactly_iff`).
There is an output exactly when the text does not open more containers than the recursion
limit allows; the `RecursionError` of `json.loads` is caught by nothing.
-/

namespace PaymentsPlatform.Bronze

open CodePoint (ofChar)
open Json (Scalar Readable Distinct)

/-- Numbers are 64-bit integers, and strings and keys have no surrogates. -/
inductive WellFormed : Json → Prop
  | null : WellFormed .null
  | bool (b : Bool) : WellFormed (.bool b)
  | int (i : Int) (lower : -2 ^ 63 ≤ i) (upper : i < 2 ^ 63) : WellFormed (.int i)
  | string (s : PyStr) (scalar : Scalar s) : WellFormed (.string s)
  | array (items : List Json) (each : ∀ v ∈ items, WellFormed v) : WellFormed (.array items)
  | object (members : List (PyStr × Json)) (keys : ∀ m ∈ members, Scalar m.1)
      (each : ∀ m ∈ members, WellFormed m.2) : WellFormed (.object members)

section Hashed

variable (repr : Json → PyStr) (sha256 : List UInt8 → String)

/-- The digest of an id that can be encoded. -/
def hexdigest (v : Json) : String :=
  sha256 (Json.encodeUtf8 ((str repr v).map fun c => Char.ofNat c.val))

/-- An id that is not null, replaced by its digest. -/
def hashed : Json → Json
  | .null => .null
  | v => .string (pyStr (hexdigest repr sha256 v))

/-- A section with its ids hashed, when it is an object. -/
def hashedSection : Json → Json
  | .object fields => .object (mapMembers piiFields (hashed repr sha256) fields)
  | v => v

/-- The members of an envelope with the ids of its sections hashed. -/
def hashedEnvelope (members : List (PyStr × Json)) : List (PyStr × Json) :=
  mapMembers rowSections (hashedSection repr sha256) members

/-- Two ids that are not null and have one digest. -/
def HashAlike (v w : Json) : Prop :=
  v ≠ .null ∧ w ≠ .null ∧ hexdigest repr sha256 v = hexdigest repr sha256 w

/-- Members with the same keys, whose values differ under some keys only and are related
there. -/
def Differ (keys : List String) (R : Json → Json → Prop) :
    List (PyStr × Json) → List (PyStr × Json) → Prop :=
  List.Forall₂ fun m m' => m.1 = m'.1 ∧ (m.2 = m'.2 ∨ m.1 ∈ keys.map pyStr ∧ R m.2 m'.2)

/-- Sections that differ in ids with one digest. -/
def SectionsDiffer (v w : Json) : Prop :=
  ∃ fields fields', v = .object fields ∧ w = .object fields' ∧
    Differ piiFields (HashAlike repr sha256) fields fields'

/-- Envelopes that differ in the ids of their sections only, where the digests agree. -/
def EnvelopesDiffer : List (PyStr × Json) → List (PyStr × Json) → Prop :=
  Differ rowSections (SectionsDiffer repr sha256)

end Hashed

variable {float : List Char → PyFloat} {repr : Json → PyStr} {sha256 : List UInt8 → String}
variable {f : Json → Except MaskFault Json} {g : Json → Json} {keys : List String}
variable {members members' : List (PyStr × Json)} {v w : Json}

@[simp] theorem keys_mapMembers :
    (mapMembers keys g members).map Prod.fst = members.map Prod.fst := by
  rw [mapMembers, List.map_map]
  rfl

theorem mem_mapMembers {m : PyStr × Json} (h : m ∈ mapMembers keys g members) :
    ∃ old ∈ members, m.1 = old.1 ∧ (m.2 = old.2 ∨ m.2 = g old.2) := by
  obtain ⟨old, hold, rfl⟩ := List.mem_map.mp h
  refine ⟨old, hold, rfl, ?_⟩
  simp only
  split
  · exact .inr rfl
  · exact .inl rfl

/-- The numbers of an envelope have few digits. -/
theorem readable_of_wellFormed (wellFormed : WellFormed v) (distinct : Distinct v) :
    Readable v := by
  induction wellFormed with
  | null => exact .null
  | bool b => exact .bool b
  | int i lower upper =>
      have small : i.natAbs < 10 ^ 19 := by omega
      have digits : (Nat.toDigits 10 i.natAbs).length ≤ 19 :=
        (Nat.length_toDigits_le_iff (by decide) (by decide)).mpr small
      exact .int i (le_trans digits (by decide))
  | string s scalar => exact .string s scalar.unjoined
  | array items each ih =>
      cases distinct with
      | array _ distinct => exact .array items fun v hv => ih v hv (distinct v hv)
  | object members keys each ih =>
      cases distinct with
      | object _ unique distinct =>
          exact .object members unique (fun m hm => (keys m hm).unjoined)
            fun m hm => ih m hm (distinct m hm)

/-- Replacing values keeps what they have in common. -/
theorem wellFormed_mapMembers (wellFormed : WellFormed (.object members))
    (preserves : ∀ v, WellFormed v → WellFormed (g v)) :
    WellFormed (.object (mapMembers keys g members)) := by
  cases wellFormed with
  | object _ names each =>
      refine .object _ (fun m hm => ?_) fun m hm => ?_
      · obtain ⟨old, hold, key, _⟩ := mem_mapMembers hm
        exact key ▸ names old hold
      · obtain ⟨old, hold, _, value | value⟩ := mem_mapMembers hm
        · exact value ▸ each old hold
        · exact value ▸ preserves _ (each old hold)

theorem distinct_mapMembers (distinct : Distinct (.object members))
    (preserves : ∀ v, Distinct v → Distinct (g v)) :
    Distinct (.object (mapMembers keys g members)) := by
  cases distinct with
  | object _ names each =>
      refine .object _ (by rwa [keys_mapMembers]) fun m hm => ?_
      obtain ⟨old, hold, _, value | value⟩ := mem_mapMembers hm
      · exact value ▸ each old hold
      · exact value ▸ preserves _ (each old hold)

theorem wellFormed_hashed (v : Json) : WellFormed (hashed repr sha256 v) := by
  cases v with
  | null => exact .null
  | _ => exact .string _ (Json.scalar_pyStr _)

theorem distinct_hashed (v : Json) : Distinct (hashed repr sha256 v) := by
  cases v with
  | null => exact .null
  | _ => exact .string _

theorem wellFormed_hashedSection (wellFormed : WellFormed v) :
    WellFormed (hashedSection repr sha256 v) := by
  cases v with
  | object fields => exact wellFormed_mapMembers wellFormed fun v _ => wellFormed_hashed v
  | _ => exact wellFormed

theorem distinct_hashedSection (distinct : Distinct v) :
    Distinct (hashedSection repr sha256 v) := by
  cases v with
  | object fields => exact distinct_mapMembers distinct fun v _ => distinct_hashed v
  | _ => exact distinct

/-- The masked envelope is read back. -/
theorem readable_hashedEnvelope (wellFormed : WellFormed (.object members))
    (distinct : Distinct (.object members)) :
    Readable (.object (hashedEnvelope repr sha256 members)) :=
  readable_of_wellFormed (wellFormed_mapMembers wellFormed fun _ => wellFormed_hashedSection)
    (distinct_mapMembers distinct fun _ => distinct_hashedSection)

/-- An update that always succeeds. -/
theorem updateMember_eq {key : String}
    (succeeds : ∀ m ∈ members, m.1 = pyStr key → f m.2 = .ok (g m.2)) :
    updateMember key f members = .ok (mapMembers [key] g members) := by
  induction members with
  | nil => rfl
  | cons m members ih =>
      obtain ⟨first, succeeds⟩ := List.forall_mem_cons.mp succeeds
      refine updateMember_cons.mpr ⟨_, ?_, _, ih succeeds, rfl⟩
      by_cases hkey : m.1 = pyStr key
      · simp [updateValue, hkey, first hkey]
      · simp [updateValue, hkey]

/-- Updating one key and then others updates them all. -/
theorem mapMembers_cons {key : String} (new : pyStr key ∉ keys.map pyStr) :
    mapMembers keys g (mapMembers [key] g members) = mapMembers (key :: keys) g members := by
  rw [mapMembers, mapMembers, List.map_map]
  refine List.map_congr_left fun m _ => ?_
  by_cases hkey : m.1 = pyStr key
  · have absent : m.1 ∉ keys.map pyStr := hkey ▸ new
    have single : m.1 ∈ [key].map pyStr := hkey ▸ List.mem_singleton_self _
    have first : m.1 ∈ (key :: keys).map pyStr := hkey ▸ List.mem_cons_self
    simp only [Function.comp_apply, if_pos single, if_neg absent, if_pos first]
  · simp [hkey]

theorem updateMembers_eq (distinct : (keys.map pyStr).Nodup)
    (succeeds : ∀ m ∈ members, m.1 ∈ keys.map pyStr → f m.2 = .ok (g m.2)) :
    updateMembers keys f members = .ok (mapMembers keys g members) := by
  induction keys generalizing members with
  | nil => simp [updateMembers, mapMembers]; rfl
  | cons key keys ih =>
      obtain ⟨new, distinct⟩ := List.nodup_cons.mp distinct
      have first : updateMember key f members = .ok (mapMembers [key] g members) :=
        updateMember_eq fun m hm hkey => succeeds m hm (hkey ▸ List.mem_cons_self)
      show updateMember key f members >>= updateMembers keys f = _
      rw [← mapMembers_cons new, first]
      refine ih distinct fun m hm hkey => ?_
      obtain ⟨old, hold, rfl⟩ := List.mem_map.mp hm
      have other : old.1 ≠ pyStr key := fun same => new (same ▸ hkey)
      simp only [List.map_cons, List.map_nil, List.mem_singleton, if_neg other]
      exact succeeds old hold (List.mem_cons_of_mem _ hkey)

/-- The text of a value has no surrogate. -/
theorem scalar_str (clean : ∀ v, Scalar (repr v)) (wellFormed : WellFormed v) :
    Scalar (str repr v) := by
  cases wellFormed with
  | null => exact Json.scalar_pyStr _
  | bool b => exact Json.scalar_pyStr _
  | int i lower upper => exact fun _ => CodePoint.isSurrogate_of_mem
  | string s scalar => exact scalar
  | array items each => exact clean _
  | object members keys each => exact clean _

theorem hashField_eq (clean : ∀ v, Scalar (repr v)) (wellFormed : WellFormed v) :
    hashField repr sha256 v = .ok (hashed repr sha256 v) := by
  have encoded : strEncode (str repr v) =
      some (Json.encodeUtf8 ((str repr v).map fun c => Char.ofNat c.val)) := by
    refine if_pos (List.all_eq_true.mpr fun c hc => ?_)
    rw [scalar_str clean wellFormed c hc]
    rfl
  cases v with
  | null => rfl
  | _ => simp only [hashField, encoded, hashed, hexdigest]

theorem maskSection_eq (clean : ∀ v, Scalar (repr v)) (wellFormed : WellFormed v) :
    maskSection repr sha256 v = .ok (hashedSection repr sha256 v) := by
  cases wellFormed with
  | object fields keys each =>
      have masked : updateMembers piiFields (hashField repr sha256) fields =
          .ok (mapMembers piiFields (hashed repr sha256) fields) :=
        updateMembers_eq (by decide) fun m hm _ => hashField_eq clean (each m hm)
      show updateMembers piiFields _ fields >>= _ = _
      rw [masked]
      rfl
  | _ => rfl

/-- Masking a well-formed envelope succeeds, and hashes the ids of its sections. -/
theorem maskEnvelope_eq (clean : ∀ v, Scalar (repr v)) (wellFormed : WellFormed (.object members)) :
    maskEnvelope repr sha256 (.object members) =
      .ok (.object (hashedEnvelope repr sha256 members)) := by
  cases wellFormed with
  | object _ keys each =>
      have masked : updateMembers rowSections (maskSection repr sha256) members =
          .ok (mapMembers rowSections (hashedSection repr sha256) members) :=
        updateMembers_eq (by decide) fun m hm _ => maskSection_eq clean (each m hm)
      show updateMembers rowSections _ members >>= _ = _
      rw [masked]
      rfl

/-- A replacement that cannot tell the differences makes them vanish. -/
theorem mapMembers_eq_of_differ {R : Json → Json → Prop} (differ : Differ keys R members members')
    (blind : ∀ v w, R v w → g v = g w) :
    mapMembers keys g members = mapMembers keys g members' := by
  induction differ with
  | nil => rfl
  | @cons m m' _ _ h _ ih =>
      obtain ⟨key, same | ⟨replaced, related⟩⟩ := h
      · have : m = m' := Prod.ext key same
        rw [mapMembers, List.map_cons, this]
        exact congrArg _ ih
      · have value : (m.1, if m.1 ∈ keys.map pyStr then g m.2 else m.2) =
            (m'.1, if m'.1 ∈ keys.map pyStr then g m'.2 else m'.2) := by
          rw [← key, if_pos replaced, if_pos replaced, blind _ _ related]
        rw [mapMembers, List.map_cons, value]
        exact congrArg _ ih

theorem hashed_eq_of_hashAlike (alike : HashAlike repr sha256 v w) :
    hashed repr sha256 v = hashed repr sha256 w := by
  obtain ⟨hv, hw, same⟩ := alike
  have nonnull : ∀ v, v ≠ .null →
      hashed repr sha256 v = .string (pyStr (hexdigest repr sha256 v)) :=
    fun v hv => by
      cases v with
      | null => exact absurd rfl hv
      | _ => rfl
  rw [nonnull v hv, nonnull w hw, same]

theorem hashedEnvelope_eq_of_differ (differ : EnvelopesDiffer repr sha256 members members') :
    hashedEnvelope repr sha256 members = hashedEnvelope repr sha256 members' := by
  refine mapMembers_eq_of_differ differ ?_
  rintro v w ⟨fields, fields', rfl, rfl, differ⟩
  exact congrArg Json.object (mapMembers_eq_of_differ differ fun _ _ => hashed_eq_of_hashAlike)

/-- The output is the text of the hashed envelope, where the containers of the value stay
within the limit. -/
theorem maskPiiFields_eq_iff {limit : Nat} {value out : PyStr} (clean : ∀ v, Scalar (repr v))
    (parses : Json.loads float value = .ok (.object members))
    (wellFormed : WellFormed (.object members)) :
    maskPiiFields float repr sha256 limit (some value) = .ok (some out) ↔
      Json.OpensWithin float limit value ∧
        out = (Json.dumps .default (.object (hashedEnvelope repr sha256 members))).map ofChar := by
  rw [← Json.loadsWithin_iff parses]
  constructor
  · intro returned
    rcases maskPiiFields_cases returned with ⟨refused, _⟩ | ⟨members', t, within, hmask, hout⟩
    · have malformed : Json.loads float value = .error .decode := Json.loads_of_refused refused
      rw [parses] at malformed
      cases malformed
    · have same : Json.loads float value = .ok (.object members') :=
        Json.loads_of_loadsWithin within
      obtain rfl : members = members' := by
        rw [parses] at same
        injection same with same
        injection same
      rw [maskEnvelope_eq clean wellFormed] at hmask
      obtain rfl := Except.ok.inj hmask
      exact ⟨within, Option.some.inj hout⟩
  · rintro ⟨within, rfl⟩
    simp only [maskPiiFields, within, maskEnvelope_eq clean wellFormed]

/-- On a well-formed envelope there is an output, which parses to the envelope with the ids
of its sections hashed, exactly when the text opens no more containers than the limit. It is
the output of another well-formed envelope, which differs in these ids only and has the same
digests, exactly when this one does not open more of them either. -/
theorem masks_exactly_iff (float : List Char → PyFloat) (repr : Json → PyStr)
    (sha256 : List UInt8 → String) (clean : ∀ v, Scalar (repr v)) (limit : Nat) (value : PyStr)
    (members : List (PyStr × Json)) (parses : Json.loads float value = .ok (.object members))
    (wellFormed : WellFormed (.object members)) :
    ((∃ out, maskPiiFields float repr sha256 limit (some value) = .ok (some out) ∧
      Json.loads float out = .ok (.object (hashedEnvelope repr sha256 members))) ↔
        Json.OpensWithin float limit value) ∧
    ∀ value' members', Json.loads float value' = .ok (.object members') →
      WellFormed (.object members') → EnvelopesDiffer repr sha256 members members' →
        ((∃ out, maskPiiFields float repr sha256 limit (some value) = .ok (some out) ∧
          maskPiiFields float repr sha256 limit (some value') = .ok (some out)) ↔
            Json.OpensWithin float limit value ∧ Json.OpensWithin float limit value') := by
  constructor
  · have readable : Json.Readable (.object (hashedEnvelope repr sha256 members)) :=
      readable_hashedEnvelope wellFormed (Json.distinct_loads parses)
    constructor
    · rintro ⟨out, returned, _⟩
      exact ((maskPiiFields_eq_iff clean parses wellFormed).mp returned).1
    · intro within
      exact ⟨_, (maskPiiFields_eq_iff clean parses wellFormed).mpr ⟨within, rfl⟩,
        Json.loads_dumps float Json.spaced_default readable⟩
  · intro value' members' parses' wellFormed' differ
    constructor
    · rintro ⟨out, returned, returned'⟩
      exact ⟨((maskPiiFields_eq_iff clean parses wellFormed).mp returned).1,
        ((maskPiiFields_eq_iff clean parses' wellFormed').mp returned').1⟩
    · rintro ⟨within, within'⟩
      refine ⟨_, (maskPiiFields_eq_iff clean parses wellFormed).mpr ⟨within, rfl⟩, ?_⟩
      rw [hashedEnvelope_eq_of_differ differ]
      exact (maskPiiFields_eq_iff clean parses' wellFormed').mpr ⟨within', rfl⟩

/-- The members of the insert of a shopper. -/
def insertMembers (shopper : Int) : List (PyStr × Json) :=
  [(pyStr "after", .object [(pyStr "shopper_id", .int shopper)])]

/-- The text of the insert. -/
def insertText (shopper : Int) : PyStr :=
  (Json.dumps .default (.object (insertMembers shopper))).map ofChar

theorem wellFormed_insertMembers {shopper : Int} (lower : -2 ^ 63 ≤ shopper)
    (upper : shopper < 2 ^ 63) : WellFormed (.object (insertMembers shopper)) := by
  have scalar : ∀ s : String, ∀ c ∈ pyStr s, c.isSurrogate = false := Json.scalar_pyStr
  refine .object _ (List.forall_mem_singleton.mpr (scalar _)) (List.forall_mem_singleton.mpr ?_)
  refine .object _ (List.forall_mem_singleton.mpr (scalar _)) (List.forall_mem_singleton.mpr ?_)
  exact .int shopper lower upper

theorem loads_insertText (float : List Char → PyFloat) (shopper : Int)
    (lower : -2 ^ 63 ≤ shopper) (upper : shopper < 2 ^ 63) :
    Json.loads float (insertText shopper) = .ok (.object (insertMembers shopper)) := by
  have distinct : Distinct (.object (insertMembers shopper)) :=
    .object _ (List.nodup_singleton _) (List.forall_mem_singleton.mpr
      (.object _ (List.nodup_singleton _) (List.forall_mem_singleton.mpr (.int shopper))))
  exact Json.loads_dumps float Json.spaced_default
    (readable_of_wellFormed (wellFormed_insertMembers lower upper) distinct)

theorem masks_exactly_iff_inserts :
    (∃ out, maskPiiFields (fun _ => .nan) (fun _ => []) digestOfOne 1000 (some (insertText 1)) =
        .ok (some out) ∧
      Json.loads (fun _ => .nan) out =
        .ok (.object (hashedEnvelope (fun _ => []) digestOfOne (insertMembers 1)))) ∧
    ∃ out, maskPiiFields (fun _ => .nan) (fun _ => []) digestOfOne 1000 (some (insertText 1)) =
        .ok (some out) ∧
      maskPiiFields (fun _ => .nan) (fun _ => []) digestOfOne 1000 (some (insertText 2)) =
        .ok (some out) := by
  have parses1 := loads_insertText (fun _ => .nan) 1 (by decide) (by decide)
  have parses2 := loads_insertText (fun _ => .nan) 2 (by decide) (by decide)
  have within1 : Json.OpensWithin (fun _ => .nan) 1000 (insertText 1) :=
    (Json.loadsWithin_iff parses1).mp rfl
  have within2 : Json.OpensWithin (fun _ => .nan) 1000 (insertText 2) :=
    (Json.loadsWithin_iff parses2).mp rfl
  have alike : EnvelopesDiffer (fun _ => []) digestOfOne (insertMembers 1) (insertMembers 2) := by
    refine .cons ⟨rfl, .inr ⟨by decide, _, _, rfl, rfl, ?_⟩⟩ .nil
    exact .cons ⟨rfl, .inr ⟨by decide, by simp, by simp, rfl⟩⟩ .nil
  obtain ⟨masked, alikeMasked⟩ := masks_exactly_iff (fun _ => .nan) (fun _ => []) digestOfOne
    (fun _ _ hc => by cases hc) 1000 (insertText 1) (insertMembers 1) parses1
    (wellFormed_insertMembers (by decide) (by decide))
  exact ⟨masked.mpr within1, (alikeMasked (insertText 2) (insertMembers 2) parses2
    (wellFormed_insertMembers (by decide) (by decide)) alike).mpr ⟨within1, within2⟩⟩

/-- Some lists in one another. -/
def nestedLists : Nat → Json
  | 0 => .null
  | n + 1 => .array [nestedLists n]

def deepMembers (n : Nat) : List (PyStr × Json) := [(pyStr "a", nestedLists n)]

/-- The text of an object of lists in one another. -/
def deepText (n : Nat) : PyStr := (Json.dumps .default (.object (deepMembers n))).map ofChar

theorem wellFormed_nestedLists (n : Nat) : WellFormed (nestedLists n) := by
  induction n with
  | zero => exact .null
  | succ n ih => exact .array _ (List.forall_mem_singleton.mpr ih)

theorem distinct_nestedLists (n : Nat) : Distinct (nestedLists n) := by
  induction n with
  | zero => exact .null
  | succ n ih => exact .array _ (List.forall_mem_singleton.mpr ih)

theorem wellFormed_deepMembers (n : Nat) : WellFormed (.object (deepMembers n)) :=
  .object _ (List.forall_mem_singleton.mpr (Json.scalar_pyStr _))
    (List.forall_mem_singleton.mpr (wellFormed_nestedLists n))

theorem loads_deepText (float : List Char → PyFloat) (n : Nat) :
    Json.loads float (deepText n) = .ok (.object (deepMembers n)) := by
  have distinct : Distinct (.object (deepMembers n)) :=
    .object _ (List.nodup_singleton _) (List.forall_mem_singleton.mpr (distinct_nestedLists n))
  exact Json.loads_dumps float Json.spaced_default
    (readable_of_wellFormed (wellFormed_deepMembers n) distinct)

/-- The text of the lists starts with all their brackets. -/
theorem dumps_nestedLists (n : Nat) :
    ∃ rest, Json.dumps .default (nestedLists n) = List.replicate n '[' ++ rest := by
  induction n with
  | zero => exact ⟨_, rfl⟩
  | succ n ih =>
      obtain ⟨rest, hrest⟩ := ih
      refine ⟨rest ++ [']'], ?_⟩
      rw [nestedLists, Json.dumps, Json.dumpItems, Json.dumpItems, hrest, List.replicate_succ]
      simp

theorem dumps_deepMembers (n : Nat) : Json.dumps .default (.object (deepMembers n)) =
    "\x7b\"a\": ".toList ++ (Json.dumps .default (nestedLists n) ++ ['\x7d']) := by
  rw [deepMembers, Json.dumps, Json.dumpMembers, Json.dumpMembers]
  simp only [List.append_nil]
  rfl

/-- Each bracket opens one more list. -/
theorem reads_brackets (stack : List Json.Frame) (n : Nat) :
    Json.Reads float ⟨.firstItem, stack⟩ (List.replicate n '[')
      ⟨.firstItem, List.replicate n (.array []) ++ stack⟩ := by
  induction n generalizing stack with
  | zero => exact .nil
  | succ n ih =>
      rw [List.replicate_succ, List.replicate_succ', List.append_assoc]
      exact .cons rfl (ih (.array [] :: stack))

/-- Behind the brackets the object and the lists are open. -/
theorem not_opensWithin_deepText (limit : Nat) :
    ¬Json.OpensWithin float limit (deepText (limit + 1)) := by
  intro within
  obtain ⟨rest, hrest⟩ := dumps_nestedLists (limit + 1)
  let opened : List Char := "\x7b\"a\": ".toList ++ List.replicate (limit + 1) '['
  have pre : opened.map ofChar <+: deepText (limit + 1) := by
    rw [deepText, dumps_deepMembers, hrest, ← List.append_assoc, ← List.append_assoc]
    exact ⟨_, List.map_append.symm.trans (congrArg _ (List.append_assoc ..).symm)⟩
  have start : Json.Reads float ⟨.value, []⟩ "\x7b\"a\": ".toList
      ⟨.value, [.member OrderedDict.empty (pyStr "a")]⟩ := by
    rfl
  have read : Json.Reads float ⟨.value, []⟩ opened
      ⟨.firstItem, List.replicate limit (.array []) ++ [.member OrderedDict.empty (pyStr "a")]⟩ :=
    start.append (.cons rfl (reads_brackets _ limit))
  have depth := within _ pre _ read
  simp [Json.Scanner.depth] at depth

theorem maskPiiFields_deepText (limit : Nat) :
    maskPiiFields float repr sha256 limit (some (deepText (limit + 1))) = .error .recursion := by
  have parses := loads_deepText float (limit + 1)
  have deep : Json.loadsWithin float limit (deepText (limit + 1)) = .error .recursion := by
    refine (Json.loadsWithin_cases _ _ _).resolve_right fun same => ?_
    rw [parses] at same
    exact not_opensWithin_deepText limit ((Json.loadsWithin_iff parses).mp same)
  simp only [maskPiiFields, deep]

/-- An object of more lists in one another than the limit is not returned. -/
theorem deepText_raises :
    Json.loads (fun _ => .nan) (deepText (1000 + 1)) = .ok (.object (deepMembers (1000 + 1))) ∧
      WellFormed (.object (deepMembers (1000 + 1))) ∧
        maskPiiFields (fun _ => .nan) (fun _ => []) digestOfOne 1000
          (some (deepText (1000 + 1))) = .error .recursion :=
  ⟨loads_deepText _ _, wellFormed_deepMembers _, maskPiiFields_deepText 1000⟩

end PaymentsPlatform.Bronze
