import Mathlib

/-!
# SQL's three-valued logic

A nullable column of type `α` is an `Option α`, and a condition is a `Truth`:
`none` is UNKNOWN. Comparisons with NULL are UNKNOWN, and a filter, a join
condition or a `WHEN` clause accepts a row only when its condition is true.
`Truth.holds` is that acceptance test, and the lemmas about it are how the rest
of the development leaves the three-valued world.
-/

namespace PaymentsPlatform.Sql

variable {α : Type*}

/-- A truth value of SQL; `none` is UNKNOWN. -/
abbrev Truth := Option Bool

namespace Truth

/-- A condition selects a row only when it is true, not when it is UNKNOWN. -/
def holds (t : Truth) : Bool := t == some true

/-- Kleene conjunction: a false operand decides, an UNKNOWN one does not. -/
def and : Truth → Truth → Truth
  | some false, _ => some false
  | some true, t => t
  | none, some false => some false
  | none, _ => none

/-- Kleene disjunction: a true operand decides. -/
def or : Truth → Truth → Truth
  | some true, _ => some true
  | some false, t => t
  | none, some true => some true
  | none, _ => none

/-- Negation leaves UNKNOWN unknown. -/
def not (t : Truth) : Truth := t.map Bool.not

/-- A condition as a number: UNKNOWN is NULL. -/
def toInt (t : Truth) : Option Int := t.map fun b => if b then 1 else 0

@[simp] theorem holds_none : holds none = false := rfl

@[simp] theorem holds_some (b : Bool) : holds (some b) = b := by cases b <;> rfl

theorem holds_iff {t : Truth} : t.holds = true ↔ t = some true := by
  simp [holds]

@[simp] theorem holds_and (a b : Truth) : (a.and b).holds = (a.holds && b.holds) := by
  rcases a with _ | _ | _ <;> rcases b with _ | _ | _ <;> rfl

@[simp] theorem holds_or (a b : Truth) : (a.or b).holds = (a.holds || b.holds) := by
  rcases a with _ | _ | _ <;> rcases b with _ | _ | _ <;> rfl

theorem holds_not {t : Truth} : t.not.holds = true ↔ t = some false := by
  rcases t with _ | _ | _ <;> simp [Truth.not]

theorem toInt_eq_some_one {t : Truth} : t.toInt = some 1 ↔ t = some true := by
  rcases t with _ | _ | _ <;> simp [toInt]

theorem toInt_nonneg {t : Truth} {n : Int} (h : t.toInt = some n) : 0 ≤ n := by
  rcases t with _ | _ | _ <;> simp [toInt] at h <;> omega

end Truth

/-- `a IS NULL`, which is never UNKNOWN. -/
def isNull (a : Option α) : Truth := some a.isNone

/-- Equality of nullable values. -/
def eq [DecidableEq α] (a b : Option α) : Truth :=
  match a, b with
  | some x, some y => some (decide (x = y))
  | _, _ => none

/-- Their order. -/
def lt [LT α] [DecidableLT α] (a b : Option α) : Truth :=
  match a, b with
  | some x, some y => some (decide (x < y))
  | _, _ => none

/-- `a IN (l₁, l₂, ...)` for a list of literals, none of which is NULL. -/
def isIn [DecidableEq α] (a : Option α) (literals : List α) : Truth :=
  a.map fun x => decide (x ∈ literals)

@[simp] theorem isNull_holds (a : Option α) : (isNull a).holds = a.isNone := by
  simp [isNull]

theorem eq_holds [DecidableEq α] {a b : Option α} :
    (eq a b).holds = true ↔ ∃ x, a = some x ∧ b = some x := by
  rcases a with _ | x <;> rcases b with _ | y <;> simp [eq, eq_comm]

theorem lt_holds [LT α] [DecidableLT α] {a b : Option α} :
    (lt a b).holds = true ↔ ∃ x y, a = some x ∧ b = some y ∧ x < y := by
  rcases a with _ | x <;> rcases b with _ | y <;> simp [lt]

theorem isIn_holds [DecidableEq α] {a : Option α} {literals : List α} :
    (isIn a literals).holds = true ↔ ∃ x ∈ literals, a = some x := by
  rcases a with _ | x <;> simp [isIn]

theorem not_isIn_holds [DecidableEq α] {a : Option α} {literals : List α} :
    (isIn a literals).not.holds = true ↔ ∃ x, a = some x ∧ x ∉ literals := by
  rw [Truth.holds_not]
  rcases a with _ | x <;> simp [isIn]

end PaymentsPlatform.Sql
