import PaymentsPlatform.Sql.Logic

/-!
# `LEFT JOIN`

`leftJoin cond xs ys` pairs every row on the left with the rows on the right that its
condition selects, and with NULLs when it selects none. A condition that is UNKNOWN
selects nothing.
-/

namespace PaymentsPlatform.Sql

variable {α β : Type*} {cond : α → β → Truth} {xs : List α} {ys : List β} {x : α}

/-- The rows of the right side that match a row of the left side. -/
def matching (cond : α → β → Truth) (ys : List β) (x : α) : List β :=
  ys.filter fun y => (cond x y).holds

/-- The pairs of rows that match, and the rows on the left that match none. -/
def leftJoin (cond : α → β → Truth) (xs : List α) (ys : List β) : List (α × Option β) :=
  xs.flatMap fun x =>
    match matching cond ys x with
    | [] => [(x, none)]
    | y :: matched => (y :: matched).map fun y => (x, some y)

theorem mem_matching {y : β} : y ∈ matching cond ys x ↔ y ∈ ys ∧ (cond x y).holds = true :=
  List.mem_filter

theorem matching_eq_nil_iff :
    matching cond ys x = [] ↔ ∀ y ∈ ys, ¬(cond x y).holds = true :=
  List.filter_eq_nil_iff

theorem mem_leftJoin_some {y : β} :
    (x, some y) ∈ leftJoin cond xs ys ↔ x ∈ xs ∧ y ∈ matching cond ys x := by
  rw [leftJoin, List.mem_flatMap]
  constructor
  · rintro ⟨x', hx, hmem⟩
    split at hmem
    · cases List.mem_singleton.mp hmem
    · rename_i some_match
      obtain ⟨y', hy, heq⟩ := List.mem_map.mp hmem
      obtain ⟨rfl, hsome⟩ := Prod.mk.inj heq
      obtain rfl := Option.some.inj hsome
      exact ⟨hx, some_match ▸ hy⟩
  · rintro ⟨hx, hy⟩
    refine ⟨x, hx, ?_⟩
    split
    · rename_i none_matches
      rw [none_matches] at hy
      cases hy
    · rename_i some_match
      exact List.mem_map.mpr ⟨y, some_match ▸ hy, rfl⟩

theorem mem_leftJoin_none :
    (x, none) ∈ leftJoin cond xs ys ↔ x ∈ xs ∧ matching cond ys x = [] := by
  rw [leftJoin, List.mem_flatMap]
  constructor
  · rintro ⟨x', hx, hmem⟩
    split at hmem
    · rename_i none_matches
      obtain ⟨rfl, _⟩ := Prod.mk.inj (List.mem_singleton.mp hmem)
      exact ⟨hx, none_matches⟩
    · obtain ⟨y, _, heq⟩ := List.mem_map.mp hmem
      cases (Prod.mk.inj heq).2
  · rintro ⟨hx, none_matches⟩
    refine ⟨x, hx, ?_⟩
    rw [none_matches]
    exact List.mem_singleton_self _

/-- A row without a match appears once, and a row with matches once for each. -/
theorem mem_leftJoin {o : Option β} : (x, o) ∈ leftJoin cond xs ys ↔ x ∈ xs ∧
    match o with
    | some y => y ∈ ys ∧ (cond x y).holds = true
    | none => ∀ y ∈ ys, ¬(cond x y).holds = true := by
  cases o with
  | none => rw [mem_leftJoin_none, matching_eq_nil_iff]
  | some y => rw [mem_leftJoin_some, mem_matching]

/-- No row of the left side is lost. -/
theorem exists_mem_leftJoin (cond : α → β → Truth) (ys : List β) (hx : x ∈ xs) :
    ∃ o, (x, o) ∈ leftJoin cond xs ys := by
  by_cases matched : ∃ y ∈ ys, (cond x y).holds = true
  · obtain ⟨y, hy, holds⟩ := matched
    exact ⟨some y, mem_leftJoin.mpr ⟨hx, hy, holds⟩⟩
  · exact ⟨none, mem_leftJoin.mpr ⟨hx, fun y hy holds => matched ⟨y, hy, holds⟩⟩⟩

/-- Rows with distinct keys match at most once, when the condition fixes the key. -/
theorem length_matching_le_one {κ : Type*} {key : β → κ} (nodup : (ys.map key).Nodup)
    (fixes : ∀ y y', (cond x y).holds = true → (cond x y').holds = true → key y = key y') :
    (matching cond ys x).length ≤ 1 := by
  have nodup : ((matching cond ys x).map key).Nodup := nodup.sublist (List.filter_sublist.map key)
  match hmatched : matching cond ys x with
  | [] => exact Nat.zero_le 1
  | [_] => exact le_refl 1
  | y :: y' :: rest =>
      have selected : ∀ z ∈ matching cond ys x, (cond x z).holds = true :=
        fun z hz => (List.mem_filter.mp hz).2
      rw [hmatched] at nodup selected
      have same := fixes y y' (selected y (by simp)) (selected y' (by simp))
      simp [same] at nodup

/-- A join that matches every row at most once keeps the left side. -/
theorem map_fst_leftJoin (unique : ∀ x ∈ xs, (matching cond ys x).length ≤ 1) :
    (leftJoin cond xs ys).map Prod.fst = xs := by
  induction xs with
  | nil => rfl
  | cons x xs ih =>
      obtain ⟨hx, unique⟩ := List.forall_mem_cons.mp unique
      rw [leftJoin, List.flatMap_cons, List.map_append, ← leftJoin, ih unique]
      match hmatched : matching cond ys x with
      | [] => rfl
      | [y] => rfl
      | y :: y' :: rest => simp [hmatched] at hx

end PaymentsPlatform.Sql
