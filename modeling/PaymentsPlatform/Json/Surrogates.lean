import PaymentsPlatform.Json.Bytes
import PaymentsPlatform.Json.RoundTrip

/-!
# Surrogates in pairs

The text of a string has the same escapes whether two code points are a pair of surrogates
or the one code point they encode, so that a string is read back with its pairs joined. It
is read back as itself when it has none (`joinPairs_eq_self`).
-/

namespace PaymentsPlatform

namespace Json

/-- A string with its pairs of surrogates joined. -/
def joinPairs (s : PyStr) : PyStr := joinSurrogates (s.map Fin.val)

variable {s : PyStr} {c d : CodePoint}

/-- The code point of a pair. -/
def pair (c d : CodePoint) : CodePoint :=
  Fin.ofNat 0x110000 (0x10000 + (c.val - 0xD800) * 0x400 + (d.val - 0xDC00))

@[simp] theorem joinPairs_nil : joinPairs [] = [] := rfl

@[simp] theorem joinPairs_singleton : joinPairs [c] = [c] := congrArg (fun c => [c]) (ofNat_val c)

theorem joinPairs_pair (high : IsHigh c) (low : IsLow d) :
    joinPairs (c :: d :: s) = pair c d :: joinPairs s := by
  rw [joinPairs, List.map_cons, List.map_cons, joinSurrogates, if_pos ⟨high, low⟩]
  rfl

theorem joinPairs_apart (apart : ¬(IsHigh c ∧ IsLow d)) :
    joinPairs (c :: d :: s) = c :: joinPairs (d :: s) := by
  have h : ¬((0xD800 ≤ c.val ∧ c.val < 0xDC00) ∧ 0xDC00 ≤ d.val ∧ d.val < 0xE000) := apart
  rw [joinPairs, List.map_cons, List.map_cons, joinSurrogates, if_neg h, ofNat_val]
  rfl

theorem val_pair (high : IsHigh c) (low : IsLow d) :
    (pair c d).val = 0x10000 + (c.val - 0xD800) * 0x400 + (d.val - 0xDC00) := by
  obtain ⟨_, _⟩ := high
  obtain ⟨_, _⟩ := low
  exact Nat.mod_eq_of_lt (by omega)

/-- The cases of joining. -/
theorem pair_induction {P : PyStr → Prop} (nil : P []) (single : ∀ c, P [c])
    (joined : ∀ c d s, IsHigh c → IsLow d → P s → P (c :: d :: s))
    (apart : ∀ c d s, ¬(IsHigh c ∧ IsLow d) → P (d :: s) → P (c :: d :: s)) : ∀ s, P s
  | [] => nil
  | [c] => single c
  | c :: d :: s =>
      if h : IsHigh c ∧ IsLow d then
        joined c d s h.1 h.2 (pair_induction nil single joined apart s)
      else apart c d s h (pair_induction nil single joined apart (d :: s))

theorem shortEscape_eq_none {n : Nat} (large : 0x80 ≤ n) : shortEscape n = none := by
  cases h : shortEscape n with
  | none => rfl
  | some letter =>
      unfold shortEscape at h
      split at h
      all_goals first | omega | cases h

/-- A surrogate is escaped alone. -/
theorem escapeChar_surrogate (h : 0xD800 ≤ c.val ∧ c.val < 0xE000) :
    escapeChar c = unicodeEscape c.val := by
  rw [escapeChar, shortEscape_eq_none (by omega)]
  simp only
  rw [if_neg (by omega), if_pos (by omega)]

theorem escapeChar_pair (high : IsHigh c) (low : IsLow d) :
    escapeChar (pair c d) = escapeChar c ++ escapeChar d := by
  have value := val_pair high low
  obtain ⟨_, _⟩ := high
  obtain ⟨_, _⟩ := low
  have first : 0xD800 + ((pair c d).val - 0x10000) / 0x400 = c.val := by omega
  have second : 0xDC00 + ((pair c d).val - 0x10000) % 0x400 = d.val := by omega
  rw [escapeChar_surrogate (c := c) (by omega), escapeChar_surrogate (c := d) (by omega),
    escapeChar, shortEscape_eq_none (by omega)]
  simp only
  rw [if_neg (by omega), if_neg (by omega), first, second]

/-- The text does not tell a pair from its code point. -/
theorem escape_joinPairs (s : PyStr) : escape (joinPairs s) = escape s := by
  induction s using pair_induction with
  | nil => rfl
  | single c => rw [joinPairs_singleton]
  | joined c d s high low ih =>
      rw [joinPairs_pair high low]
      simp only [escape, List.flatMap_cons, escapeChar_pair high low, List.append_assoc]
      exact congrArg _ (congrArg _ ih)
  | apart c d s apart ih =>
      rw [joinPairs_apart apart]
      exact congrArg (escapeChar c ++ ·) ih

theorem pair_not_high (high : IsHigh c) (low : IsLow d) : ¬IsHigh (pair c d) := by
  rintro ⟨_, _⟩
  have := val_pair high low
  omega

theorem pair_not_low (high : IsHigh c) (low : IsLow d) : ¬IsLow (pair c d) := by
  rintro ⟨_, _⟩
  have := val_pair high low
  omega

/-- The first code point, which may have been joined. -/
private theorem head_joinPairs (h : ¬IsLow d) : ∀ e ∈ (joinPairs (d :: s)).head?, ¬IsLow e := by
  intro e he
  cases s with
  | nil =>
      rw [joinPairs_singleton] at he
      obtain rfl := Option.some.inj he
      exact h
  | cons c rest =>
      by_cases joined : IsHigh d ∧ IsLow c
      · rw [joinPairs_pair joined.1 joined.2] at he
        obtain rfl := Option.some.inj he
        exact pair_not_low joined.1 joined.2
      · rw [joinPairs_apart joined] at he
        obtain rfl := Option.some.inj he
        exact h

/-- No pair is left. -/
theorem unjoined_joinPairs (s : PyStr) : Unjoined (joinPairs s) := by
  induction s using pair_induction with
  | nil => exact List.isChain_nil
  | single c =>
      rw [joinPairs_singleton]
      exact List.isChain_singleton c
  | joined c d s high low ih =>
      rw [joinPairs_pair high low]
      exact List.isChain_cons.mpr ⟨fun e _ both => pair_not_high high low both.1, ih⟩
  | apart c d s apart ih =>
      rw [joinPairs_apart apart]
      refine List.isChain_cons.mpr ⟨fun e he both => ?_, ih⟩
      by_cases low : IsLow d
      · exact apart ⟨both.1, low⟩
      · exact head_joinPairs low e he both.2

/-- The strings that joining leaves alone. -/
theorem joinPairs_eq_self : joinPairs s = s ↔ Unjoined s := by
  constructor
  · intro same
    rw [← same]
    exact unjoined_joinPairs s
  · intro unjoined
    induction s with
    | nil => rfl
    | cons c rest ih =>
        cases rest with
        | nil => exact joinPairs_singleton
        | cons d rest =>
            obtain ⟨apart, unjoined⟩ := List.isChain_cons_cons.mp unjoined
            rw [joinPairs_apart apart, ih unjoined]

theorem quote_joinPairs (s : PyStr) : quote (joinPairs s) = quote s := by
  rw [quote, escape_joinPairs, quote]

/-- The members of an object with the pairs of their values joined. -/
def joinedMembers (members : List (PyStr × PyStr)) : List (PyStr × PyStr) :=
  members.map fun m => (m.1, joinPairs m.2)

theorem dumpMembers_joined (sep : Separators) (first : Bool) (members : List (PyStr × PyStr)) :
    dumpMembers sep first (stringMembers (joinedMembers members)) =
      dumpMembers sep first (stringMembers members) := by
  induction members generalizing first with
  | nil => rfl
  | cons m members ih =>
      have value : dumps sep (.string (joinPairs m.2)) = dumps sep (.string m.2) := by
        rw [dumps, dumps, quote_joinPairs]
      show (if first then [] else sep.item) ++ (quote m.1 ++ (sep.key ++
        (dumps sep (.string (joinPairs m.2)) ++
          dumpMembers sep false (stringMembers (joinedMembers members))))) = _
      rw [value, ih]
      rfl

/-- An object of strings is read back with their pairs joined. -/
theorem loads_dumps_joined (float : List Char → PyFloat) {members : List (PyStr × PyStr)}
    (distinct : (members.map Prod.fst).Nodup) (scalar : ∀ m ∈ members, Scalar m.1) :
    loads float ((dumps .compact (.object (stringMembers members))).map CodePoint.ofChar) =
      .ok (.object (stringMembers (joinedMembers members))) := by
  have text : dumps .compact (.object (stringMembers members)) =
      dumps .compact (.object (stringMembers (joinedMembers members))) := by
    rw [dumps, dumps, dumpMembers_joined]
  rw [text]
  refine loads_dumps float spaced_compact (.object _ ?_ ?_ ?_)
  · rw [stringMembers, joinedMembers, List.map_map, List.map_map]
    exact distinct
  · intro _ hm
    obtain ⟨_, hjoined, rfl⟩ := List.mem_map.mp hm
    obtain ⟨m, mem, rfl⟩ := List.mem_map.mp hjoined
    exact (scalar m mem).unjoined
  · intro _ hm
    obtain ⟨_, hjoined, rfl⟩ := List.mem_map.mp hm
    obtain ⟨m, mem, rfl⟩ := List.mem_map.mp hjoined
    exact .string _ (unjoined_joinPairs m.2)

end Json

end PaymentsPlatform
