import Mathlib

/-!
# A reader that can be set back

A reader goes through a log by position and may be set back, as often as it likes, to a
position it has passed. What it read is the list of positions in reading order. `position`
is where it stands, `mark` is the first position past everything it read, and `NoSkip`
says that it never jumped ahead.

* `mem_of_passed`: a reader that stands behind a position after it stood at it or before
  it has read it in between.
* `mem_of_lt_mark`: nothing below the mark was left out.
-/

namespace PaymentsPlatform.Streaming

/-- Where a reader stands that started at `b` and read the positions in turn. -/
def position (b : ℕ) (read : List ℕ) : ℕ := read.foldl (fun _ p => p + 1) b

/-- The first position past everything read, when everything below `h` had been read. -/
def mark (h : ℕ) (read : List ℕ) : ℕ := read.foldl (fun h p => max h (p + 1)) h

/-- No read jumps ahead of where the reader stands. -/
def NoSkip : ℕ → List ℕ → Prop
  | _, [] => True
  | b, p :: read => p ≤ b ∧ NoSkip (p + 1) read

variable {b h i p : ℕ} {read more : List ℕ}

@[simp] theorem position_nil : position b [] = b := rfl

@[simp] theorem position_cons : position b (p :: read) = position (p + 1) read := rfl

theorem position_append : position b (read ++ more) = position (position b read) more :=
  List.foldl_append

@[simp] theorem mark_nil : mark h [] = h := rfl

@[simp] theorem mark_cons : mark h (p :: read) = mark (max h (p + 1)) read := rfl

theorem mark_append : mark h (read ++ more) = mark (mark h read) more :=
  List.foldl_append

@[simp] theorem noSkip_nil : NoSkip b [] := trivial

@[simp] theorem noSkip_cons : NoSkip b (p :: read) ↔ p ≤ b ∧ NoSkip (p + 1) read := Iff.rfl

theorem noSkip_append :
    NoSkip b (read ++ more) ↔ NoSkip b read ∧ NoSkip (position b read) more := by
  induction read generalizing b with
  | nil => simp
  | cons p read ih => simp [ih, and_assoc]

instance : ∀ (b : ℕ) (read : List ℕ), Decidable (NoSkip b read)
  | _, [] => .isTrue trivial
  | b, p :: read =>
      have := instDecidableNoSkip (p + 1) read
      inferInstanceAs (Decidable (p ≤ b ∧ NoSkip (p + 1) read))

theorem NoSkip.mono {b' : ℕ} (h : NoSkip b read) (le : b ≤ b') : NoSkip b' read := by
  cases read with
  | nil => trivial
  | cons p read => exact ⟨h.1.trans le, h.2⟩

/-- Reading on from where one stands jumps over nothing. -/
theorem noSkip_range' (b n : ℕ) : NoSkip b (List.range' b n) := by
  induction n generalizing b with
  | zero => trivial
  | succ n ih => exact ⟨le_refl b, ih (b + 1)⟩

theorem position_range' (c b n : ℕ) :
    position c (List.range' b n) = if n = 0 then c else b + n := by
  induction n generalizing c b with
  | zero => rfl
  | succ n ih =>
      rw [List.range'_succ, position_cons, ih, if_neg (Nat.succ_ne_zero n)]
      split <;> omega

theorem mark_range' (h b n : ℕ) :
    mark h (List.range' b n) = if n = 0 then h else max h (b + n) := by
  induction n generalizing h b with
  | zero => rfl
  | succ n ih =>
      rw [List.range'_succ, mark_cons, ih, if_neg (Nat.succ_ne_zero n)]
      split <;> omega

theorem le_mark : h ≤ mark h read := by
  induction read generalizing h with
  | nil => exact le_refl h
  | cons p read ih => exact (le_max_left h (p + 1)).trans ih

theorem lt_mark_of_mem (hp : p ∈ read) : p < mark h read := by
  induction read generalizing h with
  | nil => cases hp
  | cons q read ih =>
      rcases List.mem_cons.mp hp with rfl | hp
      · exact (le_max_right h (p + 1)).trans le_mark
      · exact ih hp

theorem mark_le {n : ℕ} (le : h ≤ n) (below : ∀ p ∈ read, p < n) : mark h read ≤ n := by
  induction read generalizing h with
  | nil => exact le
  | cons p read ih =>
      refine ih (max_le le (below p List.mem_cons_self)) fun q hq => ?_
      exact below q (List.mem_cons_of_mem _ hq)

theorem position_le_mark (le : b ≤ h) : position b read ≤ mark h read := by
  induction read generalizing b h with
  | nil => exact le
  | cons p read ih => exact ih (le_max_right h (p + 1))

/-- A position the reader stood before and has passed was read. -/
theorem mem_of_passed (noSkip : NoSkip b read) (start : b ≤ i) (passed : i < position b read) :
    i ∈ read := by
  induction read generalizing b with
  | nil => exact absurd passed (not_lt.mpr start)
  | cons p read ih =>
      obtain ⟨hp, rest⟩ := noSkip
      by_cases here : i = p
      · exact here ▸ List.mem_cons_self
      · have ahead : p + 1 ≤ i := by omega
        exact List.mem_cons_of_mem _ (ih rest ahead passed)

/-- So was one past a position that was read. -/
theorem mem_of_passed_since (noSkip : NoSkip b read) (hp : p ∈ read) (start : p ≤ i)
    (passed : i < position b read) : i ∈ read := by
  obtain ⟨before, after, rfl⟩ := List.append_of_mem hp
  rw [position_append, position_cons] at passed
  obtain ⟨_, _, rest⟩ := noSkip_append.mp noSkip
  by_cases here : i = p
  · exact here ▸ hp
  · have ahead : p + 1 ≤ i := by omega
    exact List.mem_append_right _ (List.mem_cons_of_mem _ (mem_of_passed rest ahead passed))

/-- What the mark moves over was read. -/
theorem mem_of_lt_mark (noSkip : NoSkip b read) (le : b ≤ h) (start : h ≤ i)
    (below : i < mark h read) : i ∈ read := by
  induction read generalizing b h with
  | nil => exact absurd below (not_lt.mpr start)
  | cons p read ih =>
      obtain ⟨hp, rest⟩ := noSkip
      by_cases here : i = p
      · exact here ▸ List.mem_cons_self
      · have ahead : max h (p + 1) ≤ i := by omega
        exact List.mem_cons_of_mem _ (ih rest (le_max_right h (p + 1)) ahead below)

end PaymentsPlatform.Streaming
