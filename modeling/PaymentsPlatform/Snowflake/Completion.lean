import PaymentsPlatform.Machine.Run
import PaymentsPlatform.Snowflake.SnapshotRuns

/-!
# Completed means reconciled

The control table under any sequence of registrations and validations. A validation
reconciles against the counts and the type that are registered, and completes the run
if that passes; the state also remembers the type a run was reconciled under.

The two statements restore different halves of the invariant: a registration rewrites
the expected counts and the type of a completed run, but not its completion, which
then speaks of counts that were never reconciled. `reconciled_iff` says which
registrations do no harm.
-/

namespace PaymentsPlatform.Snowflake

/-- The control table, with the snapshot types the runs were reconciled under. -/
structure ControlState where
  table : List SnapshotRun
  reconciledAs : String × String → Option String

/-- The empty control table. -/
def ControlState.init : ControlState := { table := [], reconciledAs := fun _ => none }

inductive ControlAction where
  | register (a : Registration) (now : Int)
  | validate (key : String × String) (outcome : CopyOutcome) (allowEmpty : Bool) (now : Int)

/-- One step; a call that raises leaves the table as it was. -/
def controlStep (s : ControlState) : ControlAction → ControlState
  | .register a now =>
      match registerSnapshotRun s.table a now with
      | .ok table => { s with table := table }
      | .error _ => s
  | .validate key outcome allowEmpty now =>
      match s.table.find? fun r => r.key = key with
      | none => s
      | some r =>
          match reconcileSnapshot r.expectedParts r.expectedRows outcome r.snapshotType
            allowEmpty with
          | .error _ => s
          | .ok () =>
              { table := completeSnapshotRun s.table key outcome now
                reconciledAs :=
                  if r.completedAt = none then
                    Function.update s.reconciledAs key (some r.snapshotType)
                  else s.reconciledAs }

/-- There is at most one row for a run. -/
def OneRowPerRun (s : ControlState) : Prop := (s.table.map SnapshotRun.key).Nodup

/-- The loaded counts of the row cover the expected ones, and its type is the one the
run was reconciled under. -/
def CountsReconcile (s : ControlState) (r : SnapshotRun) : Prop :=
  ∃ parts rows, r.loadedParts = some parts ∧ r.loadedRows = some rows ∧
    r.expectedParts ≤ parts ∧ r.expectedRows ≤ rows ∧
      s.reconciledAs r.key = some r.snapshotType

/-- Completed means reconciled. -/
structure Reconciled (s : ControlState) : Prop where
  unique : OneRowPerRun s
  completed : ∀ r ∈ s.table, r.completedAt ≠ none → CountsReconcile s r

/-- A registration that finds its run completed keeps the type, and expects no more
than was loaded. -/
def KeepsReconciled (s : ControlState) : ControlAction → Prop
  | .register a _ => a.snapshotType ∈ [snapshotFull, snapshotWindow] →
      ∀ r ∈ s.table, r.key = a.key → r.completedAt ≠ none →
        ∃ parts rows, r.loadedParts = some parts ∧ r.loadedRows = some rows ∧
          a.expectedParts ≤ parts ∧ a.expectedRows ≤ rows ∧ a.snapshotType = r.snapshotType
  | .validate .. => True

variable {s : ControlState} {a : Registration} {now : Int}

theorem controlStep_register (known : a.snapshotType ∈ [snapshotFull, snapshotWindow]) :
    controlStep s (.register a now) = { s with table := registered s.table a now } := by
  simp only [controlStep, registerSnapshotRun_eq, if_pos known]

theorem controlStep_register_refused (unknown : a.snapshotType ∉ [snapshotFull, snapshotWindow]) :
    controlStep s (.register a now) = s := by
  simp only [controlStep, registerSnapshotRun_eq, if_neg unknown]

/-- A validation does nothing, or it completes a run whose counts reconcile. -/
theorem controlStep_validate (s : ControlState) (key : String × String) (outcome : CopyOutcome)
    (allowEmpty : Bool) (now : Int) :
    controlStep s (.validate key outcome allowEmpty now) = s ∨
      ∃ r ∈ s.table, r.key = key ∧ r.expectedParts ≤ outcome.fileCount ∧
        r.expectedRows ≤ outcome.rowsLoaded ∧
          controlStep s (.validate key outcome allowEmpty now) =
            { table := completeSnapshotRun s.table key outcome now
              reconciledAs :=
                if r.completedAt = none then
                  Function.update s.reconciledAs key (some r.snapshotType)
                else s.reconciledAs } := by
  simp only [controlStep]
  cases hfind : s.table.find? fun r => r.key = key with
  | none => exact .inl rfl
  | some r =>
      cases hrec : reconcileSnapshot r.expectedParts r.expectedRows outcome r.snapshotType
        allowEmpty with
      | error e => exact .inl (by simp only [hrec])
      | ok _ =>
          obtain ⟨_, parts, rows⟩ := of_reconcileSnapshot hrec
          have same : r.key = key := by simpa using List.find?_some hfind
          exact .inr ⟨r, List.mem_of_find?_eq_some hfind, same, parts, rows, by simp only [hrec]⟩

/-- Every step keeps one row for a run. -/
theorem oneRowPerRun_step (unique : OneRowPerRun s) (action : ControlAction) :
    OneRowPerRun (controlStep s action) := by
  cases action with
  | register a now =>
      by_cases known : a.snapshotType ∈ [snapshotFull, snapshotWindow]
      · rw [controlStep_register known]
        exact nodup_keys_registered unique
      · rw [controlStep_register_refused known]
        exact unique
  | validate key outcome allowEmpty now =>
      rcases controlStep_validate s key outcome allowEmpty now with same | ⟨r, _, _, _, _, done⟩
      · rw [same]
        exact unique
      · rw [done, OneRowPerRun, keys_completeSnapshotRun]
        exact unique

/-- A validation keeps the invariant. -/
theorem reconciled_validate (h : Reconciled s) (key : String × String) (outcome : CopyOutcome)
    (allowEmpty : Bool) (now : Int) :
    Reconciled (controlStep s (.validate key outcome allowEmpty now)) := by
  refine ⟨oneRowPerRun_step h.unique _, fun r' hr' hcompleted => ?_⟩
  rcases controlStep_validate s key outcome allowEmpty now with
    same | ⟨r, hr, hkey, parts, rows, done⟩
  · rw [same] at hr' ⊢
    exact h.completed r' hr' hcompleted
  · rw [done] at hr' ⊢
    rcases mem_completeSnapshotRun.mp hr' with ⟨hold, closed⟩ | ⟨old, hold, hkeyOld, hopen, rfl⟩
    · obtain ⟨p, n, hp, hn, hparts, hrows, htype⟩ := h.completed r' hold hcompleted
      refine ⟨p, n, hp, hn, hparts, hrows, ?_⟩
      have other : r.completedAt = none → r'.key ≠ key := by
        intro hopen hkey'
        have equal := List.inj_on_of_nodup_map h.unique hold hr (hkey'.trans hkey.symm)
        exact hcompleted (equal ▸ hopen)
      by_cases hopen : r.completedAt = none
      · simpa [hopen, Function.update_of_ne (other hopen)] using htype
      · simpa [hopen] using htype
    · have equal := List.inj_on_of_nodup_map h.unique hold hr (hkeyOld.trans hkey.symm)
      subst equal
      refine ⟨_, _, rfl, rfl, parts, rows, ?_⟩
      rw [if_pos hopen, SnapshotRun.key_complete, hkey]
      exact Function.update_self key _ _

/-- A registration keeps the invariant exactly when it does not rewrite a completed
run beyond what was reconciled. -/
theorem reconciled_register_iff (h : Reconciled s) (a : Registration) (now : Int) :
    Reconciled (controlStep s (.register a now)) ↔ KeepsReconciled s (.register a now) := by
  by_cases known : a.snapshotType ∈ [snapshotFull, snapshotWindow]
  · constructor
    · intro after _ r hr same hcompleted
      have hmem : r.reregister a now ∈ (controlStep s (.register a now)).table := by
        rw [controlStep_register known]
        exact mem_registered.mpr (.inr (.inl ⟨r, hr, same, rfl⟩))
      obtain ⟨p, n, hp, hn, hparts, hrows, htype⟩ := after.completed _ hmem hcompleted
      obtain ⟨_, _, _, _, _, _, htype'⟩ := h.completed r hr hcompleted
      rw [controlStep_register known, SnapshotRun.key_reregister same, ← same, htype'] at htype
      exact ⟨p, n, hp, hn, hparts, hrows, (Option.some.inj htype).symm⟩
    · intro keeps
      refine ⟨oneRowPerRun_step h.unique _, fun r' hr' hcompleted => ?_⟩
      rw [controlStep_register known] at hr' ⊢
      rcases mem_registered.mp hr' with ⟨hold, _⟩ | ⟨old, hold, same, rfl⟩ | ⟨_, rfl⟩
      · exact h.completed r' hold hcompleted
      · obtain ⟨p, n, hp, hn, hparts, hrows, htype⟩ := keeps known old hold same hcompleted
        obtain ⟨_, _, _, _, _, _, htype'⟩ := h.completed old hold hcompleted
        refine ⟨p, n, hp, hn, hparts, hrows, ?_⟩
        rw [SnapshotRun.key_reregister same, ← same, htype', ← htype]
        rfl
      · exact absurd rfl hcompleted
  · rw [controlStep_register_refused known]
    exact ⟨fun _ hknown => absurd hknown known, fun _ => h⟩

theorem reconciled_init : Reconciled ControlState.init where
  unique := List.nodup_nil
  completed r hr := by cases hr

/-- Every run of the control table keeps one row for a run; and completed means
reconciled throughout exactly when every registration of a completed run keeps its
type and expects no more than was loaded. -/
theorem reconciled_iff (actions : List ControlAction) :
    Machine.Always controlStep OneRowPerRun ControlState.init actions ∧
      (Machine.Always controlStep Reconciled ControlState.init actions ↔
        Machine.Along controlStep KeepsReconciled ControlState.init actions) := by
  constructor
  · exact Machine.always_of_invariant reconciled_init.unique
      fun _ action unique => oneRowPerRun_step unique action
  · refine Machine.always_iff_along (I := fun _ => True) trivial (fun _ _ _ => trivial)
      reconciled_init fun s action _ h => ?_
    cases action with
    | register a now => exact reconciled_register_iff h a now
    | validate key outcome allowEmpty now =>
        exact iff_of_true (reconciled_validate h key outcome allowEmpty now) trivial

/-- A full payments run of one part. -/
def sampleRegistration : Registration :=
  { dataset := "payments", runId := "manual__2026-09-04", runDate := .sample,
    snapshotType := snapshotFull, expectedParts := 1, expectedRows := 5 }

/-- The run is registered, validated, and registered again with what a second attempt
staged. -/
def reregisteredAfterCompletion : List ControlAction :=
  [.register sampleRegistration 1,
   .validate sampleRegistration.key { files := ["part-00001"], rowsLoaded := 5, skipped := [] }
     false 2,
   .register { sampleRegistration with expectedParts := 3, expectedRows := 50 } 3]

theorem reregistered_not_reconciled :
    ¬Machine.Always controlStep Reconciled ControlState.init reregisteredAfterCompletion := by
  intro always
  obtain ⟨p, n, hp, _, hparts, _⟩ := always.final.completed _ List.mem_cons_self (by decide)
  cases hp
  exact absurd hparts (by decide)

end PaymentsPlatform.Snowflake
