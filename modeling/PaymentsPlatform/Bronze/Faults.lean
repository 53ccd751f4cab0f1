import PaymentsPlatform.Bronze.Masking

/-!
# What masking raises

`mask_pii_fields` on any Python string, within the recursion limit of the interpreter. It
catches a `JSONDecodeError` and a `TypeError`; it does not catch the `AttributeError` of
JSON that is no object, the `UnicodeEncodeError` of an id with a surrogate, the
`ValueError` of an integer that is too long, or the `RecursionError` of a text that opens
too many containers. `maskPii_returns_iff` says on which inputs it returns.
-/

namespace PaymentsPlatform.Bronze

open Json (loadsWithin)

section Inputs

variable (float : List Char → PyFloat) (limit : Nat)

/-- The text of a JSON object. -/
def IsObject (value : Option PyStr) : Prop :=
  ∃ text members, value = some text ∧ Json.loads float text = .ok (.object members)

/-- No id of a section is a string with a surrogate. -/
def Encodable (members : List (PyStr × Json)) : Prop :=
  ∀ m ∈ members, m.1 ∈ rowSections.map pyStr → ∀ fields, m.2 = .object fields →
    ∀ field ∈ fields, field.1 ∈ piiFields.map pyStr →
      ∀ s, field.2 = .string s → ∀ c ∈ s, c.isSurrogate = false

/-- Nothing, a text that is malformed, or an object whose ids can be encoded; of a text, what
is read of it neither opens too many containers nor has an integer that is too long. -/
inductive Maskable : Option PyStr → Prop
  | none : Maskable none
  | malformed (text : PyStr) (refused : loadsWithin float limit text = .error (.text .decode)) :
      Maskable (some text)
  | object (text : PyStr) (members : List (PyStr × Json))
      (parses : loadsWithin float limit text = .ok (.object members))
      (encodable : Encodable members) : Maskable (some text)

end Inputs

variable {float : List Char → PyFloat} {repr : Json → PyStr} {sha256 : List UInt8 → String}
variable {limit : Nat} {f : Json → Except MaskFault Json} {keys : List String} {key : String}
variable {members : List (PyStr × Json)} {v : Json}

/-- An update returns exactly when it does for the values it is made on. -/
theorem updateMember_returns : (∃ masked, updateMember key f members = .ok masked) ↔
    ∀ m ∈ members, m.1 = pyStr key → ∃ w, f m.2 = .ok w := by
  induction members with
  | nil => exact iff_of_true ⟨[], rfl⟩ (by simp)
  | cons m members ih =>
      rw [List.forall_mem_cons, ← ih]
      simp only [updateMember_cons]
      by_cases hkey : m.1 = pyStr key
      · simp only [updateValue, if_pos hkey]
        constructor
        · rintro ⟨_, value, hvalue, rest, hrest, rfl⟩
          exact ⟨fun _ => ⟨value, hvalue⟩, rest, hrest⟩
        · rintro ⟨first, rest, hrest⟩
          obtain ⟨value, hvalue⟩ := first hkey
          exact ⟨_, value, hvalue, rest, hrest, rfl⟩
      · simp only [updateValue, if_neg hkey]
        constructor
        · rintro ⟨_, value, hvalue, rest, hrest, rfl⟩
          exact ⟨fun same => absurd same hkey, rest, hrest⟩
        · rintro ⟨_, rest, hrest⟩
          exact ⟨_, m.2, rfl, rest, hrest, rfl⟩

theorem updateMembers_returns (distinct : (keys.map pyStr).Nodup) :
    (∃ masked, updateMembers keys f members = .ok masked) ↔
      ∀ m ∈ members, m.1 ∈ keys.map pyStr → ∃ w, f m.2 = .ok w := by
  induction keys generalizing members with
  | nil => exact iff_of_true ⟨members, rfl⟩ (by simp)
  | cons key keys ih =>
      obtain ⟨new, distinct⟩ := List.nodup_cons.mp distinct
      have unfolded : ∀ masked, updateMembers (key :: keys) f members = .ok masked ↔
          ∃ middle, updateMember key f members = .ok middle ∧
            updateMembers keys f middle = .ok masked :=
        fun masked => bind_eq_ok (x := updateMember key f members)
      have others : ∀ middle, updateMember key f members = .ok middle →
          ((∀ m ∈ middle, m.1 ∈ keys.map pyStr → ∃ w, f m.2 = .ok w) ↔
            ∀ m ∈ members, m.1 ∈ keys.map pyStr → ∃ w, f m.2 = .ok w) := by
        intro middle hmiddle
        have failing := exists_updateMember (g := id)
          (P := fun k v => k ∈ keys.map pyStr ∧ ¬∃ w, f v = .ok w) hmiddle
          fun _ _ _ => by simp only [new, false_and]
        simp only [id_eq, ite_self] at failing
        have := not_congr failing
        push Not at this
        exact this
      constructor
      · rintro ⟨masked, hmasked⟩ m hm hkey
        obtain ⟨middle, hmiddle, rest⟩ := (unfolded masked).mp hmasked
        rcases List.mem_cons.mp hkey with same | other
        · exact updateMember_returns.mp ⟨middle, hmiddle⟩ m hm same
        · exact (others middle hmiddle).mp ((ih distinct).mp ⟨masked, rest⟩) m hm other
      · intro returns
        obtain ⟨middle, hmiddle⟩ := updateMember_returns.mpr fun m hm same =>
          returns m hm (same ▸ List.mem_cons_self)
        obtain ⟨masked, rest⟩ := (ih distinct).mpr ((others middle hmiddle).mpr fun m hm hkey =>
          returns m hm (List.mem_cons_of_mem _ hkey))
        exact ⟨masked, (unfolded masked).mpr ⟨middle, hmiddle, rest⟩⟩

/-- Only a string can fail to be encoded. -/
theorem hashField_returns (clean : ∀ v, ∀ c ∈ repr v, c.isSurrogate = false) :
    (∃ w, hashField repr sha256 v = .ok w) ↔
      ∀ s, v = .string s → ∀ c ∈ s, c.isSurrogate = false := by
  have returns : ∀ v, v ≠ .null → ((∃ w, hashField repr sha256 v = .ok w) ↔
      ∀ c ∈ str repr v, c.isSurrogate = false) := by
    intro v nonnull
    have encodes : (strEncode (str repr v)).isSome ↔ ∀ c ∈ str repr v, c.isSurrogate = false := by
      simp [strEncode]
    rw [← encodes]
    cases v with
    | null => exact absurd rfl nonnull
    | _ =>
        simp only [hashField]
        cases strEncode (str repr _) <;> simp
  have chars : ∀ text : List Char, ∀ c ∈ text.map CodePoint.ofChar, c.isSurrogate = false :=
    fun _ _ => CodePoint.isSurrogate_of_mem
  cases v with
  | null => exact iff_of_true ⟨.null, rfl⟩ (by rintro s ⟨⟩)
  | string s =>
      rw [returns _ (by rintro ⟨⟩)]
      exact ⟨by rintro scalar _ ⟨⟩; exact scalar, fun scalar => scalar s rfl⟩
  | bool b => exact iff_of_true ((returns _ (by rintro ⟨⟩)).mpr (chars _)) (by rintro s ⟨⟩)
  | int i => exact iff_of_true ((returns _ (by rintro ⟨⟩)).mpr (chars _)) (by rintro s ⟨⟩)
  | float x =>
      refine iff_of_true ((returns _ (by rintro ⟨⟩)).mpr ?_) (by rintro s ⟨⟩)
      cases x <;> exact chars _
  | array items => exact iff_of_true ((returns _ (by rintro ⟨⟩)).mpr (clean _)) (by rintro s ⟨⟩)
  | object fields => exact iff_of_true ((returns _ (by rintro ⟨⟩)).mpr (clean _)) (by rintro s ⟨⟩)

private theorem exists_bind_ok {ε α β : Type} (x : Except ε α) (g : α → β) :
    (∃ w, (x >>= fun y => .ok (g y)) = .ok w) ↔ ∃ y, x = .ok y := by
  constructor
  · rintro ⟨w, hw⟩
    obtain ⟨y, hy, _⟩ := bind_eq_ok.mp hw
    exact ⟨y, hy⟩
  · rintro ⟨y, hy⟩
    exact ⟨g y, bind_eq_ok.mpr ⟨y, hy, rfl⟩⟩

theorem maskSection_returns (clean : ∀ v, ∀ c ∈ repr v, c.isSurrogate = false) :
    (∃ w, maskSection repr sha256 v = .ok w) ↔ ∀ fields, v = .object fields →
      ∀ field ∈ fields, field.1 ∈ piiFields.map pyStr →
        ∀ s, field.2 = .string s → ∀ c ∈ s, c.isSurrogate = false := by
  cases v with
  | object fields =>
      have section_ : (∃ w, maskSection repr sha256 (.object fields) = .ok w) ↔
          ∃ masked, updateMembers piiFields (hashField repr sha256) fields = .ok masked :=
        exists_bind_ok _ Json.object
      rw [section_, updateMembers_returns (by decide)]
      simp only [hashField_returns clean]
      exact ⟨by rintro each _ ⟨⟩; exact each, fun each => each fields rfl⟩
  | _ => exact iff_of_true ⟨_, rfl⟩ (by rintro fields ⟨⟩)

/-- An envelope is masked exactly when its ids can be encoded. -/
theorem maskEnvelope_returns (clean : ∀ v, ∀ c ∈ repr v, c.isSurrogate = false) :
    (∃ w, maskEnvelope repr sha256 (.object members) = .ok w) ↔ Encodable members := by
  have envelope : (∃ w, maskEnvelope repr sha256 (.object members) = .ok w) ↔
      ∃ masked, updateMembers rowSections (maskSection repr sha256) members = .ok masked :=
    exists_bind_ok _ Json.object
  rw [envelope, updateMembers_returns (by decide)]
  simp only [maskSection_returns clean]
  rfl

/-- Masking returns, and returns what is no JSON object as it is, exactly on the maskable
inputs. -/
theorem maskPii_returns_iff (float : List Char → PyFloat) (repr : Json → PyStr)
    (sha256 : List UInt8 → String) (clean : ∀ v, ∀ c ∈ repr v, c.isSurrogate = false)
    (limit : Nat) (value : Option PyStr) :
    (∃ out, maskPiiFields float repr sha256 limit value = .ok out ∧
      (¬IsObject float value → out = value)) ↔ Maskable float limit value := by
  constructor
  · rintro ⟨out, returned, _⟩
    cases value with
    | none => exact .none
    | some text =>
        rcases maskPiiFields_cases returned with ⟨refused, _⟩ | ⟨members, t, parses, hmask, _⟩
        · exact .malformed text refused
        · exact .object text members parses ((maskEnvelope_returns clean).mp ⟨t, hmask⟩)
  · rintro (_ | ⟨text, refused⟩ | ⟨text, members, parses, encodable⟩)
    · exact ⟨none, rfl, fun _ => rfl⟩
    · exact ⟨some text, by simp only [maskPiiFields, refused], fun _ => rfl⟩
    · obtain ⟨masked, hmasked⟩ :
          ∃ masked, maskEnvelope repr sha256 (.object members) = .ok masked :=
        (maskEnvelope_returns clean).mpr encodable
      refine ⟨_, by simp only [maskPiiFields, parses, hmasked]; rfl, fun other => absurd ?_ other⟩
      exact ⟨text, members, rfl, Json.loads_of_loadsWithin parses⟩

/-- An array is not maskable. -/
theorem maskPii_returns_iff_array : ¬Maskable (fun _ => .nan) 1000 (some (pyStr "[]")) := by
  intro maskable
  obtain ⟨out, returned, _⟩ := (maskPii_returns_iff (fun _ => .nan) (fun _ => []) digestOfOne
    (fun _ _ hc => by cases hc) 1000 (some (pyStr "[]"))).mpr maskable
  cases returned

/-- An array is not returned, and neither is an id with an escaped surrogate. -/
theorem array_raises :
    maskPiiFields (fun _ => .nan) (fun _ => []) digestOfOne 1000 (some (pyStr "[]")) =
        .error .notObject ∧
      maskPiiFields (fun _ => .nan) (fun _ => []) digestOfOne 1000
          (some (pyStr "\x7b\"after\": \x7b\"shopper_id\": \"\\ud800\"\x7d\x7d")) =
        .error .unencodable := by
  decide +kernel

end PaymentsPlatform.Bronze
