import PaymentsPlatform.Sql.Group
import PaymentsPlatform.Sql.Join

/-!
# Queries for what is wrong

A data test is a query for the rows that break a rule, and it passes when it selects none.
The rules here are that a column has no NULL, that no key occurs twice, and that no pair of
joined rows meets a condition.
-/

namespace PaymentsPlatform.Sql

variable {α β γ κ : Type*}

/-- The rows that have no value in a column. -/
def nulls (column : α → Option γ) (rows : List α) : List α :=
  rows.filter fun r => (isNull (column r)).holds

/-- The groups of more than one row. -/
def duplicates [DecidableEq κ] (key : α → κ) (rows : List α) : List (κ × List α) :=
  (groups key rows).filter fun g => 1 < g.2.length

/-- The same on a column, where it is not NULL. -/
def duplicateValues [DecidableEq γ] (column : α → Option γ) (rows : List α) :
    List (Option γ × List α) :=
  duplicates column (rows.filter fun r => !(isNull (column r)).holds)

/-- The pairs of rows that match. -/
def innerJoin (cond : α → β → Truth) (xs : List α) (ys : List β) : List (α × β) :=
  xs.flatMap fun x => (matching cond ys x).map (x, ·)

theorem nulls_eq_nil {column : α → Option γ} {rows : List α} :
    nulls column rows = [] ↔ ∀ r ∈ rows, column r ≠ none := by
  rw [nulls, List.filter_eq_nil_iff]
  simp

theorem duplicates_eq_nil [DecidableEq κ] {key : α → κ} {rows : List α} :
    duplicates key rows = [] ↔ (rows.map key).Nodup := by
  rw [duplicates, List.filter_eq_nil_iff, nodup_map_iff]
  constructor
  · intro single k
    by_cases present : k ∈ rows.map key
    · have small := single (k, partition key k rows) (mem_groups.mpr ⟨present, rfl⟩)
      exact not_lt.mp fun large => small (decide_eq_true large)
    · have empty : partition key k rows = [] := List.filter_eq_nil_iff.mpr fun r hr same =>
        present (List.mem_map.mpr ⟨r, hr, of_decide_eq_true same⟩)
      rw [empty]
      exact Nat.zero_le 1
  · intro single g hg large
    obtain ⟨_, members⟩ := mem_groups.mp hg
    have small := single g.1
    rw [← members] at small
    exact absurd (of_decide_eq_true large) (not_lt.mpr small)

theorem duplicateValues_eq_nil [DecidableEq γ] {column : α → Option γ} {rows : List α}
    (nodup : (rows.map column).Nodup) : duplicateValues column rows = [] :=
  duplicates_eq_nil.mpr (nodup.sublist (List.filter_sublist.map column))

theorem mem_innerJoin {cond : α → β → Truth} {xs : List α} {ys : List β} {z : α × β} :
    z ∈ innerJoin cond xs ys ↔ z.1 ∈ xs ∧ z.2 ∈ ys ∧ (cond z.1 z.2).holds = true := by
  obtain ⟨x, y⟩ := z
  rw [innerJoin, List.mem_flatMap]
  constructor
  · rintro ⟨x', hx, hmem⟩
    obtain ⟨y', hy, heq⟩ := List.mem_map.mp hmem
    obtain ⟨rfl, rfl⟩ := Prod.mk.inj heq
    exact ⟨hx, mem_matching.mp hy⟩
  · rintro ⟨hx, hy⟩
    exact ⟨x, hx, List.mem_map.mpr ⟨y, mem_matching.mpr hy, rfl⟩⟩

/-- The rows that are numbered one have distinct keys. -/
theorem nodup_latestBy [DecidableEq κ] [LinearOrder β] (part : α → κ) (ord : α → β)
    (rows : List α) : ((latestBy part ord rows).map part).Nodup := by
  refine nodup_map_iff.mpr fun k => ?_
  rw [partition_latestBy]
  cases latestOf part ord rows k with
  | none => exact Nat.zero_le 1
  | some _ => exact le_refl 1

end PaymentsPlatform.Sql
