import PaymentsPlatform.Sequenced.Cell
import PaymentsPlatform.Streaming.Rewind

/-!
# Passes over a log of changes

A log gives at every position the change it makes to a cell, if any, in increasing order
of tokens. A reader that may be set back (`Streaming.Rewind`) goes through it, and what it
reads reaches the cell in batches, each through a newest of its changes. In the middle of
a second pass a removed value may be back, but the cell is never ahead of the removal it
has yet to meet again: `Behind` is this invariant, `Behind.step` its step, and
`Behind.converges` says that a reader that has caught up with its mark leaves the cell as
one pass over the log does.
-/

namespace PaymentsPlatform.Sequenced

open Streaming

variable {ι α : Type*} [LinearOrder ι]

/-- `chosen` decides the changes: nothing when there are none, else a newest of them. -/
def Decides (es : List (Change ι α)) : Option (Change ι α) → Prop
  | none => es = []
  | some e => e ∈ es ∧ ∀ e' ∈ es, e'.token ≤ e.token

/-- A log of changes: what every position holds for the cell. -/
abbrev Log (ι α : Type*) := ℕ → Option (Change ι α)

/-- Later changes have greater tokens. -/
def Log.Increasing (f : Log ι α) : Prop :=
  ∀ i j e e', f i = some e → f j = some e' → i < j → e.token < e'.token

omit [LinearOrder ι] in
/-- The last change below `h` is `e`, at `i`. -/
structure Log.Latest (f : Log ι α) (h i : ℕ) (e : Change ι α) : Prop where
  lt : i < h
  here : f i = some e
  quiet : ∀ j, i < j → j < h → f j = none

/-- A cell that a reader has brought to `b`, when everything below `h` has been read: it
holds the last write, and in place of the last removal nothing, or something older that
the removal has yet to reach again. -/
structure Behind (f : Log ι α) (b h : ℕ) (c : Cell ι α) : Prop where
  le : b ≤ h
  untouched : (∀ i < h, f i = none) → c = none
  written : ∀ i e, f.Latest h i e → e.value ≠ none → c = e.outcome
  removed : ∀ i e, f.Latest h i e → e.value = none →
    c = none ∨ b ≤ i ∧ ∃ held, c = some held ∧ held.1 < e.token

variable {f : Log ι α} {b h i j : ℕ} {c : Cell ι α} {e e' : Change ι α} {read : List ℕ}
variable {chosen : Option (Change ι α)}

omit [LinearOrder ι] in
theorem Log.exists_latest (some_change : ∃ i < h, f i ≠ none) : ∃ i e, f.Latest h i e := by
  induction h with
  | zero =>
      obtain ⟨i, hi, _⟩ := some_change
      omega
  | succ h ih =>
      cases here : f h with
      | some e => exact ⟨h, e, Nat.lt_succ_self h, here, fun j hj hlt => by omega⟩
      | none =>
          have earlier : ∃ i < h, f i ≠ none := by
            obtain ⟨i, hi, hne⟩ := some_change
            refine ⟨i, lt_of_le_of_ne (Nat.lt_succ_iff.mp hi) ?_, hne⟩
            rintro rfl
            exact hne here
          obtain ⟨i, e, latest⟩ := ih earlier
          refine ⟨i, e, latest.lt.trans (Nat.lt_succ_self h), latest.here, fun j hj hlt => ?_⟩
          by_cases last : j = h
          · exact last ▸ here
          · exact latest.quiet j hj (by omega)

theorem Log.Increasing.lt_of_token (increasing : f.Increasing) (hi : f i = some e)
    (hj : f j = some e') (newer : e.token < e'.token) : i < j := by
  rcases lt_trichotomy i j with lt | rfl | gt
  · exact lt
  · rw [hi, Option.some_inj] at hj
    exact absurd newer (hj ▸ lt_irrefl _)
  · exact absurd newer (increasing j i e' e hj hi gt).le.not_gt

theorem Log.Increasing.le_of_token (increasing : f.Increasing) (hi : f i = some e)
    (hj : f j = some e') (newer : e.token ≤ e'.token) : i ≤ j :=
  not_lt.mp fun gt => newer.not_gt (increasing j i e' e hj hi gt)

/-- Nothing has been read of an empty cell. -/
theorem Behind.start (f : Log ι α) : Behind f 0 0 none where
  le := le_refl 0
  untouched _ := rfl
  written i _ latest := absurd latest.lt (Nat.not_lt_zero i)
  removed i _ latest := absurd latest.lt (Nat.not_lt_zero i)

omit [LinearOrder ι] in
/-- No change below the mark is past the last one. -/
theorem Log.Latest.le (latest : f.Latest h i e) (hj : f j = some e') (below : j < h) : j ≤ i := by
  by_contra past
  rw [latest.quiet j (not_le.mp past) below] at hj
  cases hj

/-- The choice of a batch without changes. -/
theorem Decides.of_quiet (decides : Decides (read.filterMap f) chosen)
    (quiet : ∀ i ∈ read, f i = none) : chosen = none := by
  cases chosen with
  | none => rfl
  | some e =>
      obtain ⟨i, hi, he⟩ := List.mem_filterMap.mp decides.1
      rw [quiet i hi] at he
      cases he

/-- The choice of a batch with a change has the greatest position. -/
theorem Decides.greatest (increasing : f.Increasing)
    (decides : Decides (read.filterMap f) chosen) (hi : i ∈ read) (hne : f i ≠ none) :
    ∃ e m, chosen = some e ∧ m ∈ read ∧ f m = some e ∧ ∀ j ∈ read, f j ≠ none → j ≤ m := by
  cases chosen with
  | none =>
      obtain ⟨e, he⟩ := Option.ne_none_iff_exists'.mp hne
      have mem : e ∈ read.filterMap f := List.mem_filterMap.mpr ⟨i, hi, he⟩
      rw [show read.filterMap f = [] from decides] at mem
      cases mem
  | some e =>
      obtain ⟨m, hm, he⟩ := List.mem_filterMap.mp decides.1
      refine ⟨e, m, rfl, hm, he, fun j hj hne => ?_⟩
      obtain ⟨e', he'⟩ := Option.ne_none_iff_exists'.mp hne
      exact increasing.le_of_token he' he (decides.2 e' (List.mem_filterMap.mpr ⟨j, hj, he'⟩))

theorem Cell.held_lt_of_apply {held : ι × α} {t : ι} (h : c.apply e = some held)
    (old : ∀ held, c = some held → held.1 < t) (new : e.token < t) : held.1 < t := by
  rcases Cell.apply_token h with token | before
  · exact token ▸ new
  · exact old held before

namespace Behind

/-- A cell whose last change was a removal holds at most something older. -/
theorem held_lt_removal (inv : Behind f b h c) (latest : f.Latest h i e)
    (removal : e.value = none) : ∀ held, c = some held → held.1 < e.token := by
  rintro held rfl
  obtain empty | ⟨_, held', heq, lt⟩ := inv.removed i e latest removal
  · cases empty
  · exact Option.some.inj heq ▸ lt

/-- Whatever the cell holds is older than the log past the mark. -/
theorem held_lt (inv : Behind f b h c) (increasing : f.Increasing) (hj : f j = some e)
    (past : h ≤ j) : ∀ held, c = some held → held.1 < e.token := by
  rintro held rfl
  by_cases some_change : ∃ i < h, f i ≠ none
  · obtain ⟨i, last, latest⟩ := Log.exists_latest some_change
    have newer : last.token < e.token :=
      increasing i j last e latest.here hj (latest.lt.trans_le past)
    by_cases removal : last.value = none
    · exact (inv.held_lt_removal latest removal held rfl).trans newer
    · have outcome := inv.written i last latest removal
      obtain ⟨a, _, rfl⟩ := Option.map_eq_some_iff.mp outcome.symm
      exact newer
  · push Not at some_change
    cases inv.untouched some_change

/-- The last change below the mark stays the last one when a batch has nothing past it. -/
theorem latest_of_mark (inv : Behind f b h c) (noSkip : NoSkip b read)
    (quiet : ∀ i ∈ read, h ≤ i → f i = none) (latest : f.Latest (mark h read) i e) :
    f.Latest h i e := by
  have below : i < h := by
    by_contra past
    have hi := mem_of_lt_mark noSkip inv.le (not_lt.mp past) latest.lt
    have gone := quiet i hi (not_lt.mp past)
    rw [latest.here] at gone
    cases gone
  exact ⟨below, latest.here, fun j hj hlt => latest.quiet j hj (hlt.trans_le le_mark)⟩

/-- A batch that is not past the last write leaves it. -/
theorem written_again (inv : Behind f b h c) (increasing : f.Increasing)
    (decides : Decides (read.filterMap f) chosen) (before : f.Latest h i e)
    (latest : f.Latest (mark h read) i e) (write : e.value ≠ none) :
    c.run chosen.toList = e.outcome := by
  have held := inv.written i e before write
  cases chosen with
  | none => exact held
  | some e' =>
      obtain ⟨m, hm, he'⟩ := List.mem_filterMap.mp decides.1
      have older : e'.token ≤ e.token := by
        by_contra newer
        have ahead := increasing.lt_of_token latest.here he' (not_le.mp newer)
        exact absurd (latest.le he' (lt_mark_of_mem hm)) (not_le.mpr ahead)
      obtain ⟨a, ha⟩ := Option.ne_none_iff_exists'.mp write
      have full : e.outcome = some (e.token, a) := by rw [Change.outcome, ha, Option.map_some]
      rw [held, full]
      exact Cell.apply_of_le older

/-- A batch that meets the last removal again empties the cell; one that does not leaves
it to be met. -/
theorem removed_again (inv : Behind f b h c) (increasing : f.Increasing) (noSkip : NoSkip b read)
    (decides : Decides (read.filterMap f) chosen) (before : f.Latest h i e)
    (latest : f.Latest (mark h read) i e) (removal : e.value = none) :
    c.run chosen.toList = none ∨
      position b read ≤ i ∧ ∃ held, c.run chosen.toList = some held ∧ held.1 < e.token := by
  have behind := inv.held_lt_removal before removal
  have last : ∀ m e', m ∈ read → f m = some e' → m ≤ i :=
    fun m e' hm he' => latest.le he' (lt_mark_of_mem hm)
  by_cases met : i ∈ read
  · obtain ⟨e', m, rfl, hm, he', most⟩ := decides.greatest increasing met (by simp [latest.here])
    obtain rfl : m = i := le_antisymm (last m e' hm he') (most i met (by simp [latest.here]))
    obtain rfl : e = e' := Option.some.inj (latest.here.symm.trans he')
    left
    change c.apply e = none
    rw [Cell.apply_of_newer behind, Change.outcome, removal, Option.map_none]
  · cases chosen with
    | none =>
        refine (inv.removed i e before removal).imp_right fun away => ⟨?_, away.2⟩
        exact not_lt.mp fun passed => met (mem_of_passed noSkip away.1 passed)
    | some e' =>
        obtain ⟨m, hm, he'⟩ := List.mem_filterMap.mp decides.1
        have ahead : m < i := lt_of_le_of_ne (last m e' hm he') (by rintro rfl; exact met hm)
        have older : e'.token < e.token := increasing m i e' e he' latest.here ahead
        cases hc : c.apply e' with
        | none => exact .inl hc
        | some held =>
            refine .inr ⟨?_, held, hc, Cell.held_lt_of_apply hc behind older⟩
            exact not_lt.mp fun passed => met (mem_of_passed_since noSkip hm ahead.le passed)

/-- A batch with something past the mark is decided by its newest change. -/
theorem decided_anew (inv : Behind f b h c) (increasing : f.Increasing) (noSkip : NoSkip b read)
    (decides : Decides (read.filterMap f) chosen) (hj : j ∈ read) (past : h ≤ j)
    (hne : f j ≠ none) : ∃ m e, f.Latest (mark h read) m e ∧ c.run chosen.toList = e.outcome := by
  obtain ⟨e, m, rfl, hm, he, most⟩ := decides.greatest increasing hj hne
  have past_m : h ≤ m := past.trans (most j hj hne)
  refine ⟨m, e, ⟨lt_mark_of_mem hm, he, fun i hi below => ?_⟩,
    Cell.apply_of_newer (inv.held_lt increasing he past_m)⟩
  by_contra change
  have found := mem_of_lt_mark noSkip inv.le (past_m.trans hi.le) below
  exact absurd (most i found change) (not_le.mpr hi)

/-- A batch keeps the invariant. -/
theorem step (inv : Behind f b h c) (increasing : f.Increasing) (noSkip : NoSkip b read)
    (decides : Decides (read.filterMap f) chosen) :
    Behind f (position b read) (mark h read) (c.run chosen.toList) := by
  have le : position b read ≤ mark h read := position_le_mark inv.le
  by_cases quiet : ∀ i ∈ read, h ≤ i → f i = none
  · refine ⟨le, fun none_below => ?_, fun i e latest write => ?_, fun i e latest removal => ?_⟩
    · rw [decides.of_quiet fun i hi => none_below i (lt_mark_of_mem hi)]
      exact inv.untouched fun i hi => none_below i (hi.trans_le le_mark)
    · have before := inv.latest_of_mark noSkip quiet latest
      exact inv.written_again increasing decides before latest write
    · have before := inv.latest_of_mark noSkip quiet latest
      exact inv.removed_again increasing noSkip decides before latest removal
  · push Not at quiet
    obtain ⟨j, hj, past, hne⟩ := quiet
    obtain ⟨m, newest, here, decided⟩ := inv.decided_anew increasing noSkip decides hj past hne
    have unique : ∀ i e, f.Latest (mark h read) i e → e = newest := by
      intro i e latest
      have same : i = m := le_antisymm (here.le latest.here latest.lt) (latest.le here.here here.lt)
      exact Option.some.inj (latest.here.symm.trans (same ▸ here.here))
    refine ⟨le, fun none_below => ?_, fun i e latest _ => ?_, fun i e latest removal => ?_⟩
    · exact absurd (none_below m here.lt) (by simp [here.here])
    · exact unique i e latest ▸ decided
    · left
      rw [decided, ← unique i e latest, Change.outcome, removal, Option.map_none]

/-- So does setting the reader back. -/
theorem rewind (inv : Behind f b h c) {b' : ℕ} (le : b' ≤ b) : Behind f b' h c where
  le := le.trans inv.le
  untouched := inv.untouched
  written := inv.written
  removed i e latest removal :=
    (inv.removed i e latest removal).imp_right fun away => ⟨le.trans away.1, away.2⟩

/-- A reader that has caught up leaves what one pass over the log leaves. -/
theorem converges (inv : Behind f h h c) (increasing : f.Increasing) :
    c = Cell.run none ((List.range h).filterMap f) := by
  by_cases some_change : ∃ i < h, f i ≠ none
  · obtain ⟨i, e, latest⟩ := Log.exists_latest some_change
    have split : List.range h = List.range i ++ i :: List.range' (i + 1) (h - (i + 1)) := by
      have whole := @List.range'_append_1 0 i (h - (i + 1) + 1)
      have length : i + (h - (i + 1) + 1) = h := by
        have := latest.lt
        omega
      rwa [Nat.zero_add, List.range'_succ, length, ← List.range_eq_range', ← List.range_eq_range',
        eq_comm] at whole
    have after : (List.range' (i + 1) (h - (i + 1))).filterMap f = [] := by
      refine List.filterMap_eq_nil_iff.mpr fun j hj => ?_
      obtain ⟨low, high⟩ := List.mem_range'_1.mp hj
      exact latest.quiet j (by omega) (by have := latest.lt; omega)
    have once : Cell.run none ((List.range h).filterMap f) = e.outcome := by
      rw [split, List.filterMap_append, List.filterMap_cons_some latest.here, after]
      refine Cell.run_concat_of_newer (by simp) fun e' he' => ?_
      obtain ⟨j, hj, hf⟩ := List.mem_filterMap.mp he'
      exact increasing j i e' e hf latest.here (List.mem_range.mp hj)
    rw [once]
    by_cases removal : e.value = none
    · obtain empty | ⟨start, _⟩ := inv.removed i e latest removal
      · rw [empty, Change.outcome, removal, Option.map_none]
      · exact absurd latest.lt (not_lt.mpr start)
    · exact inv.written i e latest removal
  · push Not at some_change
    have nothing : (List.range h).filterMap f = [] :=
      List.filterMap_eq_nil_iff.mpr fun i hi => some_change i (List.mem_range.mp hi)
    rw [inv.untouched some_change, nothing, Cell.run_nil]

end Behind

end PaymentsPlatform.Sequenced
