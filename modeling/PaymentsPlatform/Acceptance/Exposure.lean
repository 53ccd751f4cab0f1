import PaymentsPlatform.Acceptance.Pattern
import PaymentsPlatform.Json.Value

/-!
# Raw shopper ids in JSON

The pattern of raw shopper ids reads the text of a value, where it finds what the value
has anywhere in its tree: a member whose key ends with the quoted name of the field, and
whose value is printed with a digit first (`hasRawId_dumps`).
-/

namespace PaymentsPlatform.Acceptance

open CodePoint (ofChar)
open Json (dumps dumpItems dumpMembers quote escape escapeChar)

/-- A key that is `shopper_id`, or ends with it behind a quote. -/
def NamesId (key : PyStr) : Prop :=
  ofChar '"' :: pyStr "shopper_id" <:+ ofChar '"' :: key

instance (key : PyStr) : Decidable (NamesId key) :=
  inferInstanceAs (Decidable (_ <:+ _))

/-- A number that is printed without a sign. -/
def leadingDigit : Json → Bool
  | .int n => 0 ≤ n
  | .float (.finite negative _ _ _) => !negative
  | _ => false

/-- A raw shopper id anywhere in a value. -/
inductive Exposed : Json → Prop
  | item {items : List Json} {item : Json} : item ∈ items → Exposed item → Exposed (.array items)
  | id {members : List (PyStr × Json)} {m : PyStr × Json} :
      m ∈ members → NamesId m.1 → leadingDigit m.2 = true → Exposed (.object members)
  | member {members : List (PyStr × Json)} {m : PyStr × Json} :
      m ∈ members → Exposed m.2 → Exposed (.object members)

theorem exposed_array {items : List Json} :
    Exposed (.array items) ↔ ∃ item ∈ items, Exposed item := by
  constructor
  · rintro (⟨mem, h⟩ | _ | _)
    exact ⟨_, mem, h⟩
  · rintro ⟨item, mem, h⟩
    exact .item mem h

/-- A member that exposes an id, itself or in its value. -/
def ExposedMember (m : PyStr × Json) : Prop :=
  (NamesId m.1 ∧ leadingDigit m.2 = true) ∨ Exposed m.2

theorem exposed_object {members : List (PyStr × Json)} :
    Exposed (.object members) ↔ ∃ m ∈ members, ExposedMember m := by
  constructor
  · rintro (_ | ⟨mem, names, digit⟩ | ⟨mem, h⟩)
    · exact ⟨_, mem, .inl ⟨names, digit⟩⟩
    · exact ⟨_, mem, .inr h⟩
  · rintro ⟨m, mem, ⟨names, digit⟩ | h⟩
    · exact .id mem names digit
    · exact .member mem h

theorem quote_notMem_hexDigits (n : Nat) : '"' ∉ Json.hexDigits n := by
  have all : ∀ d : Fin 16, '"' ≠ Nat.digitChar d := by decide
  intro h
  simp only [Json.hexDigits, List.mem_cons, List.not_mem_nil, or_false] at h
  rcases h with h | h | h | h <;> exact all ⟨_, Nat.mod_lt _ (by decide)⟩ h

theorem quote_notMem_unicodeEscape (n : Nat) : '"' ∉ Json.unicodeEscape n := by
  simp [Json.unicodeEscape, quote_notMem_hexDigits]

/-- The ways to print a code point in a string: as itself or behind a backslash, the
quote alone with a quote. -/
theorem escapeChar_cases (c : CodePoint) :
    (∃ d, c = ofChar d ∧ escapeChar c = [d] ∧ d ≠ '"' ∧ d ≠ '\\') ∨
      (∃ letters, escapeChar c = '\\' :: letters ∧ c ≠ ofChar '"' ∧ '"' ∉ letters) ∨
      c = ofChar '"' := by
  by_cases hquote : c = ofChar '"'
  · exact .inr (.inr hquote)
  have hval : c.val ≠ 0x22 := fun h => hquote (Fin.val_injective h)
  cases hshort : Json.shortEscape c.val with
  | some letter =>
      refine .inr (.inl ⟨[letter], by rw [escapeChar, hshort], hquote, fun h => ?_⟩)
      rw [← List.mem_singleton.mp h] at hshort
      unfold Json.shortEscape at hshort
      split at hshort <;> simp_all
  | none =>
      by_cases plain : 0x20 ≤ c.val ∧ c.val ≤ 0x7E
      · have hnat : (Char.ofNat c.val).toNat = c.val := by
          rw [Char.toNat_ofNat, if_pos (.inl (by omega))]
        refine .inl ⟨Char.ofNat c.val, Fin.val_injective hnat.symm, ?_, fun h => ?_, fun h => ?_⟩
        · rw [escapeChar, hshort]
          exact if_pos plain
        · exact hval (hnat.symm.trans (congrArg Char.toNat h))
        · rw [← hnat, h] at hshort
          cases hshort
      · refine .inr (.inl ?_)
        by_cases basic : c.val < 0x10000
        · refine ⟨'u' :: Json.hexDigits c.val, ?_, hquote, ?_⟩
          · rw [escapeChar, hshort]
            simp only [if_neg plain, if_pos basic]
            rfl
          · simp [quote_notMem_hexDigits]
        · refine ⟨'u' :: (Json.hexDigits (0xD800 + (c.val - 0x10000) / 0x400) ++
            Json.unicodeEscape (0xDC00 + (c.val - 0x10000) % 0x400)), ?_, hquote, ?_⟩
          · rw [escapeChar, hshort]
            simp only [if_neg plain, if_neg basic]
            rfl
          · simp [quote_notMem_hexDigits, quote_notMem_unicodeEscape]

/-- What follows a value in the text of a container, or at its end. -/
def Closing (text : List Char) : Prop := ∀ c ∈ text.head?, c ∈ [',', ']', '}']

theorem escapeChar_ne_quote (c : CodePoint) (us vs : List Char) :
    escapeChar c ++ us ≠ '"' :: vs := by
  rcases escapeChar_cases c with ⟨d, _, hd, hquote, _⟩ | ⟨letters, hletters, _⟩ | rfl
  · rw [hd]
    exact fun h => hquote (List.cons.inj h).1
  · rw [hletters]
    exact fun h => absurd (List.cons.inj h).1 (by decide)
  · exact fun h => absurd (List.cons.inj h).1 (by decide)

/-- A character that is printed as itself comes from itself. -/
theorem escapeChar_append {x : Char} (hx : escapeChar (ofChar x) = [x]) {c : CodePoint}
    {us vs : List Char} : escapeChar c ++ us = x :: vs ↔ c = ofChar x ∧ us = vs := by
  have backslash : x ≠ '\\' := by
    rintro rfl
    exact absurd hx (by decide)
  constructor
  · intro h
    rcases escapeChar_cases c with ⟨d, rfl, hd, _⟩ | ⟨letters, hletters, _⟩ | rfl
    · rw [hd] at h
      obtain ⟨rfl, rfl⟩ := List.cons.inj h
      exact ⟨rfl, rfl⟩
    · rw [hletters] at h
      exact absurd (List.cons.inj h).1.symm backslash
    · exact absurd (List.cons.inj h).1.symm backslash
  · rintro ⟨rfl, rfl⟩
    rw [hx]
    rfl

/-- The quote that ends a string is the first one that is not escaped. -/
theorem escape_cut {xs rest text : List Char} {s : PyStr}
    (plain : ∀ x ∈ xs, escapeChar (ofChar x) = [x]) :
    escape s ++ '"' :: text = xs ++ '"' :: rest ↔ s = xs.map ofChar ∧ text = rest := by
  induction xs generalizing s with
  | nil =>
      cases s with
      | nil => simp [escape]
      | cons c s => simp [escape, escapeChar_ne_quote]
  | cons x xs ih =>
      have hx := plain x (by simp)
      cases s with
      | nil =>
          have quoted : '"' ≠ x := by
            rintro rfl
            exact absurd hx (by decide)
          simp [escape, quoted]
      | cons c s =>
          have ih := ih (s := s) fun y hy => plain y (List.mem_cons_of_mem x hy)
          rw [escape, List.flatMap_cons, List.append_assoc, List.cons_append,
            escapeChar_append hx, ← escape, ih, List.map_cons, List.cons.injEq, and_assoc]

variable {ws : SpaceClass} {text : List Char} {s : PyStr}

/-- A match at the quote that opens a string, or at an escaped one. -/
theorem rawIdAt_quote : rawIdAt ws ('"' :: (escape s ++ '"' :: text)) = true ↔
    s = pyStr "shopper_id" ∧ colonAt ws text = true := by
  have plain : "shopper_id".toList.all (fun x => escapeChar (ofChar x) = [x]) = true := by decide
  have quoted : ∀ after, quotedShopperId ++ after = '"' :: ("shopper_id".toList ++ '"' :: after) :=
    fun after => rfl
  have cut : ∀ after, escape s ++ '"' :: text = "shopper_id".toList ++ '"' :: after ↔
      s = pyStr "shopper_id" ∧ text = after :=
    fun after => escape_cut fun x hx => of_decide_eq_true (List.all_eq_true.mp plain x hx)
  simp only [rawIdAt_iff, quoted, List.cons.injEq, true_and, cut]
  constructor
  · rintro ⟨after, ⟨hs, rfl⟩, hcolon⟩
    exact ⟨hs, hcolon⟩
  · rintro ⟨hs, hcolon⟩
    exact ⟨text, ⟨hs, rfl⟩, hcolon⟩

/-- A match from inside a string, whose closing quote starts none. -/
theorem hasRawId_escape (follows : text.head? ≠ some 's') (s : PyStr) :
    hasRawId ws (escape s ++ '"' :: text) = true ↔
      (ofChar '"' :: pyStr "shopper_id" <:+ s ∧ colonAt ws text = true) ∨
        hasRawId ws text = true := by
  induction s with
  | nil =>
      have none : rawIdAt ws ('"' :: text) = false := by
        rw [← Bool.not_eq_true, rawIdAt_iff]
        rintro ⟨after, h, _⟩
        rw [(List.cons.inj h).2] at follows
        exact follows rfl
      simp [escape, hasRawId_cons, none]
  | cons c s ih =>
      rw [escape, List.flatMap_cons, List.append_assoc, ← escape, List.suffix_cons_iff]
      by_cases hc : c = ofChar '"'
      · subst hc
        have skip : ∀ rest, hasRawId ws (escapeChar (ofChar '"') ++ rest) =
            hasRawId ws ('"' :: rest) :=
          fun rest => hasRawId_append (by decide : '"' ∉ ['\\'])
        rw [skip, hasRawId_cons, Bool.or_eq_true, rawIdAt_quote, ih, List.cons.injEq,
          eq_self_iff_true, true_and, eq_comm (a := pyStr "shopper_id"), or_and_right, or_assoc]
      · have unquoted : '"' ∉ escapeChar c := by
          rcases escapeChar_cases c with ⟨d, _, hd, hquote, _⟩ | ⟨letters, hletters, _, hmem⟩ | h
          · rw [hd, List.mem_singleton]
            exact hquote.symm
          · rw [hletters, List.mem_cons, not_or]
            exact ⟨by decide, hmem⟩
          · exact absurd h hc
        have elsewhere : ofChar '"' :: pyStr "shopper_id" ≠ c :: s :=
          fun h => hc (List.cons.inj h).1.symm
        rw [hasRawId_append unquoted, ih, or_iff_right elsewhere]

/-- A match that starts in a string, at one of its quotes. -/
theorem hasRawId_quote (follows : text.head? ≠ some 's') (s : PyStr) :
    hasRawId ws (quote s ++ text) = true ↔
      (NamesId s ∧ colonAt ws text = true) ∨ hasRawId ws text = true := by
  have layout : quote s ++ text = '"' :: (escape s ++ '"' :: text) := by simp [quote]
  rw [layout, hasRawId_cons, Bool.or_eq_true, rawIdAt_quote, hasRawId_escape follows, NamesId,
    List.suffix_cons_iff, List.cons.injEq, eq_self_iff_true, true_and,
    eq_comm (a := pyStr "shopper_id"), or_and_right, or_assoc]

/-- The first character of a value. -/
theorem dumps_cons (sep : Separators) (t : Json) : ∃ c rest, dumps sep t = c :: rest ∧
    ('!' ≤ c ∧ c ≤ '~') ∧ c.isDigit = leadingDigit t := by
  cases t with
  | null => exact ⟨_, _, rfl, by decide, rfl⟩
  | bool b =>
      cases b with
      | true => exact ⟨_, _, rfl, by decide, rfl⟩
      | false => exact ⟨_, _, rfl, by decide, rfl⟩
  | int n =>
      cases n with
      | ofNat n =>
          cases hdigits : Nat.toDigits 10 n with
          | nil => exact absurd hdigits Nat.toDigits_ne_nil
          | cons d ds =>
              have digit : d.isDigit = true :=
                Nat.isDigit_of_mem_toDigits (by decide) (by decide) (hdigits ▸ List.mem_cons_self)
              refine ⟨d, ds, hdigits, digit_graphic digit, ?_⟩
              rw [digit, leadingDigit, eq_comm, decide_eq_true_eq]
              exact Int.natCast_nonneg n
      | negSucc n => exact ⟨_, _, rfl, by decide, rfl⟩
  | float x =>
      cases x with
      | nan => exact ⟨_, _, rfl, by decide, rfl⟩
      | infinity negative =>
          cases negative with
          | true => exact ⟨_, _, rfl, by decide, rfl⟩
          | false => exact ⟨_, _, rfl, by decide, rfl⟩
      | finite negative first digits numeric =>
          cases negative with
          | true => exact ⟨_, _, rfl, by decide, rfl⟩
          | false =>
              have digit : ∀ d : Fin 10, (Nat.digitChar d).isDigit = true := by decide
              exact ⟨_, _, rfl, digit_graphic (digit first), digit first⟩
  | string s => exact ⟨_, _, rfl, by decide, rfl⟩
  | array items => exact ⟨_, _, rfl, by decide, rfl⟩
  | object members => exact ⟨_, _, rfl, by decide, rfl⟩

/-- The pattern goes on behind a key when the value starts with a digit. -/
theorem colonAt_value (t : Json) (text : List Char) :
    colonAt ws (Separators.default.key ++ (dumps .default t ++ text)) = leadingDigit t := by
  obtain ⟨c, rest, hdumps, graphic, digit⟩ := dumps_cons .default t
  have colon : ws.mem ':' = false := ws.not_mem_of_graphic (by decide)
  have value : ws.mem c = false := ws.not_mem_of_graphic graphic
  rw [hdumps, ← digit]
  simp [Separators.default, colonAt, digitAt, ws.space, colon, value]

/-- It does not go on behind a value. -/
theorem colonAt_closing (closing : Closing text) : colonAt ws text = false := by
  cases text with
  | nil => rfl
  | cons c text =>
      have hc : ('!' ≤ c ∧ c ≤ '~') ∧ c ≠ ':' := by
        have hmem : c ∈ [',', ']', '}'] := closing c rfl
        simp only [List.mem_cons, List.not_mem_nil, or_false] at hmem
        rcases hmem with rfl | rfl | rfl <;> decide
      have stops : ws.mem c = false := ws.not_mem_of_graphic hc.1
      simp [colonAt, stops, hc.2]

theorem head_of_closing (closing : Closing text) : text.head? ≠ some 's' := by
  intro h
  exact absurd (closing 's' h) (by decide)

theorem closing_item (text : List Char) : Closing (Separators.default.item ++ text) := by
  intro c hc
  obtain rfl : ',' = c := Option.some.inj hc
  decide

theorem closing_dumpItems (closing : Closing text) (items : List Json) :
    Closing (dumpItems .default false items ++ text) := by
  cases items with
  | nil => exact closing
  | cons item items =>
      rw [dumpItems, List.append_assoc]
      exact closing_item _

theorem closing_dumpMembers (closing : Closing text) (members : List (PyStr × Json)) :
    Closing (dumpMembers .default false members ++ text) := by
  cases members with
  | nil => exact closing
  | cons m members =>
      rw [dumpMembers, List.append_assoc]
      exact closing_item _

/-- A value without strings has no match in its text. -/
theorem hasRawId_scalar {t : Json} (hplain : '"' ∉ dumps .default t) (unexposed : ¬Exposed t) :
    hasRawId ws (dumps .default t ++ text) = true ↔ Exposed t ∨ hasRawId ws text = true := by
  rw [hasRawId_append hplain, or_iff_right unexposed]

theorem quote_notMem_intRepr (n : Int) : '"' ∉ Json.intRepr n := by
  have digits : ∀ m, '"' ∉ Nat.toDigits 10 m := fun m h =>
    absurd (Nat.isDigit_of_mem_toDigits (by decide) (by decide) h) (by decide)
  cases n with
  | ofNat n => exact digits n
  | negSucc n => simp [Json.intRepr, digits]

theorem quote_notMem_floatRepr (x : PyFloat) : '"' ∉ Json.floatRepr x := by
  cases x with
  | nan => decide
  | infinity negative =>
      cases negative with
      | true => decide
      | false => decide
  | finite negative first rest numeric =>
      have digit : ∀ d : Fin 10, '"' ≠ Nat.digitChar d := by decide
      have hrest : '"' ∉ rest := fun h =>
        (numeric '"' h).elim (by decide) (by decide)
      cases negative with
      | true => simp [Json.floatRepr, digit, hrest]
      | false => simp [Json.floatRepr, digit, hrest]

theorem quote_notMem_separator (first : Bool) :
    '"' ∉ (if first then [] else Separators.default.item) := by
  cases first with
  | true => decide
  | false => decide

mutual

/-- The text of a value has a match exactly where the value exposes an id. -/
theorem hasRawId_dumps_append (ws : SpaceClass) (t : Json) (text : List Char)
    (closing : Closing text) : hasRawId ws (dumps .default t ++ text) = true ↔
      Exposed t ∨ hasRawId ws text = true :=
  match t with
  | .null => hasRawId_scalar (by decide) nofun
  | .bool true => hasRawId_scalar (by decide) nofun
  | .bool false => hasRawId_scalar (by decide) nofun
  | .int n => hasRawId_scalar (quote_notMem_intRepr n) nofun
  | .float x => hasRawId_scalar (quote_notMem_floatRepr x) nofun
  | .string s => by
      have none : ¬Exposed (.string s) := nofun
      rw [dumps, hasRawId_quote (head_of_closing closing), colonAt_closing closing]
      simp [none]
  | .array items => by
      have layout : dumps .default (.array items) ++ text =
          ['['] ++ (dumpItems .default true items ++ (']' :: text)) := by
        simp [dumps]
      have inner : Closing (']' :: text) := by simp [Closing]
      have skip : hasRawId ws (']' :: text) = hasRawId ws text :=
        hasRawId_append (by decide : '"' ∉ [']'])
      rw [layout, hasRawId_append (by decide : '"' ∉ ['[']),
        hasRawId_dumpItems ws true items _ inner, skip, exposed_array]
  | .object members => by
      have layout : dumps .default (.object members) ++ text =
          ['{'] ++ (dumpMembers .default true members ++ ('}' :: text)) := by
        simp [dumps]
      have inner : Closing ('}' :: text) := by simp [Closing]
      have skip : hasRawId ws ('}' :: text) = hasRawId ws text :=
        hasRawId_append (by decide : '"' ∉ ['}'])
      rw [layout, hasRawId_append (by decide : '"' ∉ ['{']),
        hasRawId_dumpMembers ws true members _ inner, skip, exposed_object]

theorem hasRawId_dumpItems (ws : SpaceClass) (first : Bool) (items : List Json)
    (text : List Char) (closing : Closing text) :
    hasRawId ws (dumpItems .default first items ++ text) = true ↔
      (∃ item ∈ items, Exposed item) ∨ hasRawId ws text = true :=
  match items with
  | [] => by simp [dumpItems]
  | item :: items => by
      rw [dumpItems, List.append_assoc, List.append_assoc,
        hasRawId_append (quote_notMem_separator first),
        hasRawId_dumps_append ws item _ (closing_dumpItems closing items),
        hasRawId_dumpItems ws false items text closing, List.exists_mem_cons_iff, or_assoc]

theorem hasRawId_dumpMembers (ws : SpaceClass) (first : Bool) (members : List (PyStr × Json))
    (text : List Char) (closing : Closing text) :
    hasRawId ws (dumpMembers .default first members ++ text) = true ↔
      (∃ m ∈ members, ExposedMember m) ∨ hasRawId ws text = true :=
  match members with
  | [] => by simp [dumpMembers]
  | (key, value) :: members => by
      have follows : ∀ rest, (Separators.default.key ++ rest).head? ≠ some 's' :=
        fun rest h => absurd (Option.some.inj h) (by decide)
      rw [dumpMembers, List.append_assoc, List.append_assoc, List.append_assoc, List.append_assoc,
        hasRawId_append (quote_notMem_separator first), hasRawId_quote (follows _),
        colonAt_value, hasRawId_append (by decide : '"' ∉ Separators.default.key),
        hasRawId_dumps_append ws value _ (closing_dumpMembers closing members),
        hasRawId_dumpMembers ws false members text closing, List.exists_mem_cons_iff, ExposedMember]
      simp only [or_assoc]

end

/-- The pattern finds in the text of a value what the value exposes. -/
theorem hasRawId_dumps (ws : SpaceClass) (t : Json) :
    hasRawId ws (dumps .default t) = true ↔ Exposed t := by
  have nothing : ¬hasRawId ws [] = true := by
    rw [hasRawId_iff]
    rintro ⟨before, spaces, spaces', d, after, h, _⟩
    exact absurd (List.append_eq_nil_iff.mp (List.append_eq_nil_iff.mp h.symm).2).1 (by decide)
  have closing : Closing [] := fun _ h => by cases h
  rw [← List.append_nil (dumps .default t), hasRawId_dumps_append ws t [] closing,
    or_iff_left nothing]

end PaymentsPlatform.Acceptance
