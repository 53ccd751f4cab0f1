import Mathlib

/-!
# All matches of a pattern

`findall` looks for matches from the left and goes on behind each one that it finds. When
no match starts inside another one, it finds the matches at all places of the text
(`findall_eq`).
-/

namespace PaymentsPlatform.Text

section Findall

variable {α β : Type*} (matchAt : List α → Option (β × Nat))

/-- The matches in a text, the first characters of which are passed over. A match is a value
with the number of characters it takes. -/
def findallFrom : Nat → List α → List β
  | _, [] => []
  | skip + 1, _ :: rest => findallFrom skip rest
  | 0, c :: rest =>
      match matchAt (c :: rest) with
      | some (value, taken) => value :: findallFrom (taken - 1) rest
      | none => findallFrom 0 rest

def findall (text : List α) : List β := findallFrom matchAt 0 text

/-- The matches at all places. -/
def allMatches (text : List α) : List β :=
  text.tails.filterMap fun rest => (matchAt rest).map Prod.fst

/-- No match is in the empty text, and none starts inside another one. -/
structure Apart : Prop where
  nonempty : matchAt [] = none
  apart : ∀ text value taken, matchAt text = some (value, taken) →
    ∀ k, 0 < k → k < taken → matchAt (text.drop k) = none

variable {matchAt}

private theorem findallFrom_eq (apart : Apart matchAt) (text : List α) (skip : Nat)
    (passed : ∀ k < skip, matchAt (text.drop k) = none) :
    findallFrom matchAt skip text = allMatches matchAt text := by
  induction text generalizing skip with
  | nil => simp [findallFrom, allMatches, apart.nonempty]
  | cons c rest ih =>
      cases skip with
      | succ skip =>
          have first : matchAt (c :: rest) = none := passed 0 (Nat.succ_pos skip)
          have later : ∀ k < skip, matchAt (rest.drop k) = none := fun k hk =>
            passed (k + 1) (Nat.succ_lt_succ hk)
          rw [findallFrom, ih skip later]
          simp [allMatches, first]
      | zero =>
          rw [findallFrom]
          cases h : matchAt (c :: rest) with
          | none =>
              rw [ih 0 fun k hk => absurd hk (Nat.not_lt_zero k)]
              simp [allMatches, h]
          | some m =>
              obtain ⟨value, taken⟩ := m
              have inside : ∀ k < taken - 1, matchAt (rest.drop k) = none := fun k hk =>
                apart.apart _ _ _ h (k + 1) (Nat.succ_pos k) (by omega)
              simp only
              rw [ih (taken - 1) inside]
              simp [allMatches, h]

theorem findall_eq (apart : Apart matchAt) (text : List α) :
    findall matchAt text = allMatches matchAt text :=
  findallFrom_eq apart text 0 fun k hk => absurd hk (Nat.not_lt_zero k)

end Findall

end PaymentsPlatform.Text
