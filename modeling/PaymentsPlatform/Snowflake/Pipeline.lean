import PaymentsPlatform.Machine.Run
import PaymentsPlatform.Snowflake.Landing

/-!
# Delete by absence

`snowflake_fx_etl`: runs are staged, registered, loaded and validated in any
interleaving, with the loads and validations retried. `stg_payments` takes the absence
of a payment from the served run for its deletion, which is sound because a run is
completed only when all its records are in RAW (`stgPayments_current`).
-/

namespace PaymentsPlatform.Snowflake

variable {ι Line : Type}

namespace PipelineRun

/-- The arguments of `register_snapshot_run`, from what staging returned. -/
def registration (run : PipelineRun Line) : Registration where
  dataset := run.dataset.name
  runId := run.id
  runDate := run.runDate
  snapshotType := run.snapshotType
  expectedParts := run.parts.length
  expectedRows := run.records.length

def key (run : PipelineRun Line) : String × String := (run.dataset.name, run.id)

end PipelineRun

/-- A step of some run, of a COPY, or of a validation; `register` and `validate` can be
repeated. -/
inductive PipelineAction (ι : Type) where
  | put (i : ι)
  | register (i : ι) (now : Int)
  | copyInto (d : Dataset) (runDate : Date) (now : Int)
  | copyFails (d : Dataset) (reports : List (String × Cell × Cell))
  | validate (i : ι) (allowEmpty : Bool) (now : Int)

namespace Warehouse

/-- A run is registered when everything it stages is stored. -/
def register (plan : Plan ι Line) (s : Warehouse ι Line) (i : ι) (now : Int) : Warehouse ι Line :=
  if s.staged i = (plan.run i).parts.length then
    match registerSnapshotRun s.table (plan.run i).registration now with
    | .ok table => { s with table := table }
    | .error _ => s
  else s

/-- One run is completed if its load is reconciled. -/
def validate (plan : Plan ι Line) (s : Warehouse ι Line) (i : ι) (allowEmpty : Bool) (now : Int) :
    Warehouse ι Line :=
  let run := plan.run i
  let outcome := copyHistoryForRun (s.history run.dataset) run.id
  match reconcileSnapshot run.parts.length run.records.length outcome run.snapshotType
    allowEmpty with
  | .ok () => { s with table := completeSnapshotRun s.table run.key outcome now }
  | .error _ => s

end Warehouse

def pipelineStep [DecidableEq ι] (plan : Plan ι Line) (s : Warehouse ι Line) :
    PipelineAction ι → Warehouse ι Line
  | .put i => s.putNext plan i
  | .register i now => s.register plan i now
  | .copyInto d runDate now => s.copyInto d runDate now
  | .copyFails d reports => s.copyFails d reports
  | .validate i allowEmpty now => s.validate plan i allowEmpty now

/-- What the model serves. -/
def Warehouse.stgPayments (vf : VariantFunctions Line) (s : Warehouse ι Line) : List StgPayment :=
  Snowflake.stgPayments vf s.table (s.raw .payments)

/-- The landed rows of a run. -/
def Warehouse.landed (s : Warehouse ι Line) (run : PipelineRun Line) : List (RawRow Line) :=
  rowsOfRun run.id (s.raw run.dataset)

/-- The row of a run. -/
structure Describes (s : Warehouse ι Line) (r : SnapshotRun) (run : PipelineRun Line) : Prop where
  key_eq : r.key = run.key
  type_eq : r.snapshotType = run.snapshotType
  whole : r.completedAt ≠ none → run.records.length ≤ (s.landed run).length

/-- What landed belongs to the runs, and the completed ones have landed. -/
structure PipelineInv (plan : Plan ι Line) (s : Warehouse ι Line) : Prop where
  landed : Landed plan s
  planned : ∀ r ∈ s.table, ∃ i, Describes s r (plan.run i)

variable {plan : Plan ι Line} {s s' : Warehouse ι Line} {i j : ι} {r : SnapshotRun} {now : Int}
variable {run : PipelineRun Line}

theorem Describes.mono (h : Describes s r run) (grows : s.raw run.dataset <+: s'.raw run.dataset) :
    Describes s' r run where
  key_eq := h.key_eq
  type_eq := h.type_eq
  whole completed := (h.whole completed).trans (grows.filter _).length_le

theorem Plan.run_unique (h : (plan.run i).key = (plan.run j).key) : i = j := by
  apply plan.distinct
  obtain ⟨hname, hid⟩ := Prod.mk.inj h
  exact Prod.ext (Dataset.name_injective hname) hid

theorem register_eq (plan : Plan ι Line) (s : Warehouse ι Line) (i : ι) (now : Int) :
    s.register plan i now = if s.staged i = (plan.run i).parts.length then
      { s with table := registered s.table (plan.run i).registration now } else s := by
  have known : (plan.run i).registration.snapshotType ∈ [snapshotFull, snapshotWindow] :=
    (plan.run i).known
  simp only [Warehouse.register, registerSnapshotRun_eq, if_pos known]

/-- A validation that passes has seen as many rows as were staged. -/
theorem validate_cases (h : Landed plan s) (i : ι) (allowEmpty : Bool) (now : Int) :
    s.validate plan i allowEmpty now = s ∨
      (plan.run i).records.length ≤ (s.landed (plan.run i)).length ∧
        ∃ outcome, s.validate plan i allowEmpty now =
          { s with table := completeSnapshotRun s.table (plan.run i).key outcome now } := by
  unfold Warehouse.validate
  simp only
  split
  · rename_i passed
    have rows := (of_reconcileSnapshot passed).2.2
    rw [h.counted] at rows
    exact .inr ⟨Int.ofNat_le.mp rows, _, rfl⟩
  · exact .inl rfl

namespace PipelineInv

theorem init (plan : Plan ι Line) : PipelineInv plan Warehouse.init where
  landed := Landed.init plan
  planned r hr := by cases hr

private theorem register (h : PipelineInv plan s) (i : ι) (now : Int) :
    PipelineInv plan (s.register plan i now) := by
  rw [register_eq]
  split
  · refine ⟨⟨h.landed.stored, h.landed.once, h.landed.owned, h.landed.rows, h.landed.counted⟩,
      fun r hr => ?_⟩
    rcases mem_registered.mp hr with ⟨hold, _⟩ | ⟨old, hold, same, rfl⟩ | ⟨_, rfl⟩
    · obtain ⟨j, hj⟩ := h.planned r hold
      exact ⟨j, hj.key_eq, hj.type_eq, hj.whole⟩
    · obtain ⟨j, hj⟩ := h.planned old hold
      obtain rfl : j = i := plan.run_unique (hj.key_eq.symm.trans same)
      exact ⟨j, hj.key_eq, rfl, hj.whole⟩
    · exact ⟨i, rfl, rfl, fun completed => absurd rfl completed⟩
  · exact h

private theorem validate (h : PipelineInv plan s) (i : ι) (allowEmpty : Bool) (now : Int) :
    PipelineInv plan (s.validate plan i allowEmpty now) := by
  rcases validate_cases h.landed i allowEmpty now with same | ⟨whole, outcome, heq⟩
  · rwa [same]
  · rw [heq]
    refine ⟨⟨h.landed.stored, h.landed.once, h.landed.owned, h.landed.rows, h.landed.counted⟩,
      fun r hr => ?_⟩
    rcases mem_completeSnapshotRun.mp hr with ⟨hold, _⟩ | ⟨old, hold, same, _, rfl⟩
    · obtain ⟨j, hj⟩ := h.planned r hold
      exact ⟨j, hj.key_eq, hj.type_eq, hj.whole⟩
    · obtain ⟨j, hj⟩ := h.planned old hold
      obtain rfl : j = i := plan.run_unique (hj.key_eq.symm.trans same)
      exact ⟨j, hj.key_eq, hj.type_eq, fun _ => whole⟩

/-- A step that writes no control row keeps the invariant if RAW grows. -/
private theorem of_table_eq (h : PipelineInv plan s) (landed : Landed plan s')
    (table : s'.table = s.table) (grows : ∀ d, s.raw d <+: s'.raw d) : PipelineInv plan s' where
  landed := landed
  planned r hr := by
    obtain ⟨i, hi⟩ := h.planned r (table ▸ hr)
    exact ⟨i, hi.mono (grows _)⟩

theorem step [DecidableEq ι] (h : PipelineInv plan s) (action : PipelineAction ι) :
    PipelineInv plan (pipelineStep plan s action) := by
  cases action with
  | put i =>
      refine h.of_table_eq (h.landed.putNext i) (s.table_putNext plan i) fun d => ?_
      rw [pipelineStep, Warehouse.raw_putNext]
  | register i now => exact h.register i now
  | copyInto d runDate now =>
      exact h.of_table_eq (h.landed.copyInto d runDate now) rfl
        (s.raw_prefix_copyInto d runDate now)
  | copyFails d reports =>
      exact h.of_table_eq (h.landed.copyFails d reports) rfl fun _ => List.prefix_refl _
  | validate i allowEmpty now => exact h.validate i allowEmpty now

end PipelineInv

/-- The run is the completed full payments run that was completed last. -/
def LastCompleted (table : List SnapshotRun) (run : PipelineRun Line) : Prop :=
  run.dataset = .payments ∧ run.snapshotType = snapshotFull ∧
    ∃ r ∈ table, r.key = run.key ∧ ∃ t, r.completedAt = some t ∧
      ∀ x ∈ completedFull table, ∀ u, x.completedAt = some u → u ≤ t

/-- No two full payments runs were completed at one time. -/
def DistinctCompletions (table : List SnapshotRun) : Prop :=
  ∀ x ∈ completedFull table, ∀ y ∈ completedFull table, x.completedAt = y.completedAt → x = y

/-- The run is a full payments run, registered and not completed, all of which is in
RAW. -/
structure CompletesFull (s : Warehouse ι Line) (run : PipelineRun Line) : Prop where
  payments : run.dataset = .payments
  full : run.snapshotType = snapshotFull
  registered : ∃ r ∈ s.table, r.key = run.key ∧ r.completedAt = none
  landed : ((s.landed run).map RawRow.raw).Perm run.records

namespace PipelineInv

variable {vf : VariantFunctions Line}

/-- The served run is one of the plan; it is a full payments run, and it has landed. -/
theorem of_latestSnapshot (h : PipelineInv plan s) (hr : latestSnapshot s.table = some r) :
    ∃ i, r.runId = (plan.run i).id ∧ LastCompleted s.table (plan.run i) ∧
      ((rowsOfRun r.runId (s.raw .payments)).map RawRow.raw).Perm (plan.run i).records := by
  obtain ⟨hmem, hpayments, hfull, hcompleted⟩ := mem_completedFull.mp (latestSnapshot_mem hr)
  obtain ⟨i, hi⟩ := h.planned r hmem
  obtain ⟨hname, hid⟩ := Prod.mk.inj hi.key_eq
  have hdataset : (plan.run i).dataset = .payments :=
    Dataset.name_injective (hname.symm.trans hpayments)
  obtain ⟨t, ht⟩ := Option.ne_none_iff_exists'.mp hcompleted
  refine ⟨i, hid, ⟨hdataset, hi.type_eq.symm.trans hfull, r, hmem, hi.key_eq, t, ht, ?_⟩, ?_⟩
  · intro x hx u hu
    have order := Sql.le_latestOf hr hx rfl
    simpa [hu, ht] using order
  · have landed := h.landed.perm (hi.whole hcompleted)
    rwa [hdataset, ← hid] at landed

theorem latestSnapshot_of_lastCompleted (h : PipelineInv plan s)
    (distinct : DistinctCompletions s.table) (last : LastCompleted s.table (plan.run i)) :
    ∃ r, latestSnapshot s.table = some r ∧ r.runId = (plan.run i).id := by
  obtain ⟨hdataset, hfull, r, hr, hkey, t, ht, newest⟩ := last
  obtain ⟨hname, hid⟩ := Prod.mk.inj hkey
  obtain ⟨j, hj⟩ := h.planned r hr
  obtain rfl : j = i := plan.run_unique (hj.key_eq.symm.trans hkey)
  refine ⟨r, (latestSnapshot_eq_some distinct).mpr ⟨?_, fun x hx => ?_⟩, hid⟩
  · refine mem_completedFull.mpr ⟨hr, ?_, hj.type_eq.trans hfull, by simp [ht]⟩
    rw [hname, hdataset]
    rfl
  · obtain ⟨u, hu⟩ := Option.ne_none_iff_exists'.mp (mem_completedFull.mp hx).2.2.2
    simpa [hu, ht] using newest x hx u hu

/-- The model serves the current state of what the last completed run staged. -/
theorem currentState (h : PipelineInv plan s) (distinct : DistinctCompletions s.table)
    (last : LastCompleted s.table (plan.run i)) :
    CurrentState vf (plan.run i).records (s.stgPayments vf) := by
  obtain ⟨r, hr, hid⟩ := h.latestSnapshot_of_lastCompleted distinct last
  obtain ⟨j, hj, hlast, landed⟩ := h.of_latestSnapshot hr
  have same : j = i := plan.distinct
    (Prod.ext (hlast.1.trans last.1.symm) (hj.symm.trans hid))
  exact (currentState_stgPayments hr).perm (same ▸ landed)

/-- Without a completed full payments run nothing is served. -/
theorem stgPayments_eq_nil (h : PipelineInv plan s)
    (none : ∀ i, ¬LastCompleted s.table (plan.run i)) : s.stgPayments vf = [] := by
  cases hr : latestSnapshot s.table with
  | none => rw [Warehouse.stgPayments, Snowflake.stgPayments, hr]
  | some r =>
      obtain ⟨i, _, last, _⟩ := h.of_latestSnapshot hr
      exact absurd last (none i)

/-- More rows of the last completed run do not land. -/
private theorem rowsOfRun_copyInto (h : PipelineInv plan s) (hr : latestSnapshot s.table = some r)
    (d : Dataset) (runDate : Date) (now : Int) :
    rowsOfRun r.runId ((s.copyInto d runDate now).raw .payments) =
      rowsOfRun r.runId (s.raw .payments) := by
  obtain ⟨i, hid, last, landed⟩ := h.of_latestSnapshot hr
  have most := ((h.landed.copyInto d runDate now).subperm i).length_le
  rw [last.1, ← hid, List.length_map, ← landed.length_eq, List.length_map] at most
  have grows := (s.raw_prefix_copyInto d runDate now .payments).filter fun row =>
    decide (runSegment row.sourceFile = some r.runId)
  exact (grows.eq_of_length_le most).symm

private theorem stgPayments_register (h : PipelineInv plan s) (i : ι) (now : Int) :
    (s.register plan i now).stgPayments vf = s.stgPayments vf := by
  have keeps : ∀ r ∈ s.table, r.key = (plan.run i).registration.key →
      r.snapshotType = (plan.run i).registration.snapshotType := by
    intro r hr same
    obtain ⟨j, hj⟩ := h.planned r hr
    obtain rfl : j = i := plan.run_unique (hj.key_eq.symm.trans same)
    exact hj.type_eq
  rw [register_eq]
  split
  · refine stgPayments_congr ?_ fun _ _ => rfl
    rw [latestSnapshot_registered keeps, Option.map_map]
    congr 1
    funext r
    by_cases same : r.key = (plan.run i).registration.key
    · simp [same, SnapshotRun.reregister]
    · simp [same]
  · rfl

/-- Completing another run does not change the latest snapshot. -/
private theorem latestSnapshot_completeSnapshotRun (h : PipelineInv plan s)
    (whole : (plan.run i).records.length ≤ (s.landed (plan.run i)).length)
    (other : ¬CompletesFull s (plan.run i)) {outcome : CopyOutcome} :
    latestSnapshot (completeSnapshotRun s.table (plan.run i).key outcome now) =
      latestSnapshot s.table := by
  by_cases hopen : ∃ r ∈ s.table, r.key = (plan.run i).key ∧ r.completedAt = none
  · have unserved : ∀ r ∈ s.table, r.key = (plan.run i).key →
        ¬(r.dataset = "payments" ∧ r.snapshotType = snapshotFull) := by
      rintro r hr hkey ⟨hpayments, hfull⟩
      obtain ⟨j, hj⟩ := h.planned r hr
      obtain rfl : j = i := plan.run_unique (hj.key_eq.symm.trans hkey)
      obtain ⟨hname, _⟩ := Prod.mk.inj hkey
      exact other
        { payments := Dataset.name_injective (hname.symm.trans hpayments)
          full := hj.type_eq.symm.trans hfull
          registered := hopen
          landed := h.landed.perm whole }
    rw [latestSnapshot, completedFull_completeSnapshotRun unserved, latestSnapshot]
  · push Not at hopen
    rw [completeSnapshotRun_eq_self hopen]

/-- Only the completion of a full payments run that has landed changes what the model
serves. -/
theorem stgPayments_step [DecidableEq ι] (h : PipelineInv plan s) (action : PipelineAction ι) :
    (pipelineStep plan s action).stgPayments vf = s.stgPayments vf ∨
      ∃ i allowEmpty now, action = .validate i allowEmpty now ∧ CompletesFull s (plan.run i) := by
  cases action with
  | put i =>
      refine .inl (stgPayments_congr ?_ fun r _ => ?_)
      · rw [pipelineStep, Warehouse.table_putNext]
      · rw [pipelineStep, Warehouse.raw_putNext]
  | register i now => exact .inl (h.stgPayments_register i now)
  | copyInto d runDate now =>
      exact .inl (stgPayments_congr rfl fun r hr => h.rowsOfRun_copyInto hr d runDate now)
  | copyFails d reports => exact .inl rfl
  | validate i allowEmpty now =>
      rcases validate_cases h.landed i allowEmpty now with same | ⟨whole, outcome, heq⟩
      · exact .inl (congrArg (Warehouse.stgPayments vf) same)
      · by_cases completes : CompletesFull s (plan.run i)
        · exact .inr ⟨i, allowEmpty, now, rfl, completes⟩
        · left
          rw [pipelineStep, heq]
          refine stgPayments_congr ?_ fun _ _ => rfl
          rw [h.latestSnapshot_completeSnapshotRun whole completes]

end PipelineInv

section Runs

variable [DecidableEq ι] (plan : Plan ι Line) (vf : VariantFunctions Line)

/-- In every state that the pipeline reaches, with distinct completion times: the model
serves the current state of the records of the full payments run that was completed last,
nothing if there is none, and no step changes what it serves but the completion of a
registered full payments run all of whose records are in RAW. -/
theorem stgPayments_current (actions : List (PipelineAction ι))
    (distinct : DistinctCompletions
      (Machine.run (pipelineStep plan) Warehouse.init actions).table) :
    let s := Machine.run (pipelineStep plan) Warehouse.init actions
    (∀ i, LastCompleted s.table (plan.run i) →
        CurrentState vf (plan.run i).records (s.stgPayments vf)) ∧
      ((∀ i, ¬LastCompleted s.table (plan.run i)) → s.stgPayments vf = []) ∧
      ∀ action, (pipelineStep plan s action).stgPayments vf = s.stgPayments vf ∨
        ∃ i allowEmpty now, action = .validate i allowEmpty now ∧
          CompletesFull s (plan.run i) := by
  have inv : PipelineInv plan (Machine.run (pipelineStep plan) Warehouse.init actions) :=
    Machine.run_invariant (PipelineInv.init plan) (fun _ action h => h.step action) actions
  exact ⟨fun _ last => inv.currentState distinct last, inv.stgPayments_eq_nil,
    inv.stgPayments_step⟩

end Runs

/-- Lines with a payment id and an update time, and no other fields. -/
def sampleFunctions : VariantFunctions (Int × Int) where
  integer line field := if field = "payment_id" then some line.1 else none
  number _ _ := none
  string _ _ := none
  timestamp line field := if field = "updated_at" then some line.2 else none
  sha2 s := s

/-- A full run of two parts with two versions of payment 1, and a window run. -/
def samplePlan : Plan Bool (Int × Int) where
  run full :=
    { dataset := .payments
      runDate := .sample
      runId := if full then "manual__2026-09-04" else "window"
      id := if full then "manual__2026-09-04" else "window"
      usable := by cases full <;> decide
      snapshotType := if full then snapshotFull else snapshotWindow
      known := by cases full <;> decide
      records := if full then [(1, 10), (2, 11), (1, 12)] else [(1, 20)]
      chunkRows := 2
      chunked := by decide }
  distinct i j h := by
    cases i <;> cases j <;> first | rfl | exact absurd h (by decide)

/-- Both runs are staged and loaded, and the full one is completed on the second try. -/
def sampleSteps : List (PipelineAction Bool) :=
  [.put true, .put false, .copyInto .payments .sample 1, .put true,
   .register true 2, .register false 2, .validate true false 3,
   .copyInto .payments .sample 4, .validate true false 5,
   .validate false false 6]

theorem stgPayments_current_sample :
    CurrentState sampleFunctions [(1, 10), (2, 11), (1, 12)]
      ((Machine.run (pipelineStep samplePlan) Warehouse.init sampleSteps).stgPayments
        sampleFunctions) := by
  refine (stgPayments_current samplePlan sampleFunctions sampleSteps ?_).1 true ⟨rfl, rfl, ?_⟩
  · unfold DistinctCompletions
    decide
  · decide

end PaymentsPlatform.Snowflake
