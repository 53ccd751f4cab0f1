import PaymentsPlatform.Machine.Run
import PaymentsPlatform.Snowflake.StgPayments

/-!
# Which snapshot is served

Full payments runs are registered and completed in any order, on a clock that moves
between the steps. `stg_payments` serves the run that was completed last. That is the
most recent extract in every state exactly when completions come in the order of the
extracts and only the served run is registered again (`serving_iff`).
-/

namespace PaymentsPlatform.Snowflake

/-- The control table, the time of the last step, and the run completed last. -/
structure ServingState where
  table : List SnapshotRun
  clock : Int
  lastCompleted : Option String

def ServingState.init : ServingState := { table := [], clock := 0, lastCompleted := none }

/-- What happens to a full payments run. -/
inductive ServingAction where
  | register (runId : String) (runDate : Date) (expectedParts expectedRows : Int)
  | complete (runId : String) (outcome : CopyOutcome)

/-- The identity of a payments run. -/
def paymentsKey (runId : String) : String × String := ("payments", runId)

/-- The registration of a full payments run. -/
def fullPayments (runId : String) (runDate : Date) (expectedParts expectedRows : Int) :
    Registration :=
  { dataset := "payments", runId := runId, runDate := runDate, snapshotType := snapshotFull,
    expectedParts := expectedParts, expectedRows := expectedRows }

/-- The run can be completed: it is registered and not completed yet. -/
def Completable (table : List SnapshotRun) (runId : String) : Prop :=
  ∃ r ∈ table, r.key = paymentsKey runId ∧ r.completedAt = none

instance (table : List SnapshotRun) (runId : String) : Decidable (Completable table runId) :=
  inferInstanceAs (Decidable (∃ r ∈ table, r.key = paymentsKey runId ∧ r.completedAt = none))

/-- One step, some time after the last one. -/
def servingStep (s : ServingState) (step : Nat × ServingAction) : ServingState :=
  let now := s.clock + 1 + step.1
  match step.2 with
  | .register runId runDate expectedParts expectedRows =>
      match registerSnapshotRun s.table (fullPayments runId runDate expectedParts expectedRows)
        now with
      | .ok table => { s with table := table, clock := now }
      | .error _ => { s with clock := now }
  | .complete runId outcome =>
      { table := completeSnapshotRun s.table (paymentsKey runId) outcome now
        clock := now
        lastCompleted := if Completable s.table runId then some runId else s.lastCompleted }

/-- The served run is the one completed last. -/
def ServesLastCompleted (s : ServingState) : Prop :=
  (latestSnapshot s.table).map SnapshotRun.runId = s.lastCompleted

/-- The served run is the most recently staged one of the completed runs. -/
def ServesNewestExtract (s : ServingState) : Prop :=
  ∀ r, latestSnapshot s.table = some r → ∀ x ∈ completedFull s.table, x.stagedAt ≤ r.stagedAt

/-- A completion comes after those of all older extracts only; of the completed runs
only the served one is registered again. -/
def KeepsNewestExtract (s : ServingState) (step : Nat × ServingAction) : Prop :=
  match step.2 with
  | .register runId _ _ _ => ∀ r ∈ completedFull s.table, r.runId = runId →
      latestSnapshot s.table = some r
  | .complete runId _ => ∀ r ∈ s.table, r.runId = runId → r.completedAt = none →
      ∀ x ∈ completedFull s.table, x.stagedAt ≤ r.stagedAt

/-- What every state satisfies. -/
structure ServingInv (s : ServingState) : Prop where
  unique : (s.table.map SnapshotRun.key).Nodup
  payments : ∀ r ∈ s.table, r.dataset = "payments" ∧ r.snapshotType = snapshotFull
  staged : ∀ r ∈ s.table, r.stagedAt ≤ s.clock
  past : ∀ r ∈ s.table, ∀ t, r.completedAt = some t → t ≤ s.clock
  distinct : ∀ x ∈ s.table, ∀ y ∈ s.table, x.completedAt ≠ none →
    x.completedAt = y.completedAt → x = y
  served : ServesLastCompleted s

variable {s : ServingState} {r : SnapshotRun} {runId : String} {outcome : CopyOutcome}
variable {now : Int}

namespace ServingInv

theorem mem_completedFull (h : ServingInv s) :
    r ∈ completedFull s.table ↔ r ∈ s.table ∧ r.completedAt ≠ none := by
  rw [Snowflake.mem_completedFull]
  exact ⟨fun ⟨hr, _, _, hc⟩ => ⟨hr, hc⟩,
    fun ⟨hr, hc⟩ => ⟨hr, (h.payments r hr).1, (h.payments r hr).2, hc⟩⟩

theorem key_eq (h : ServingInv s) (hr : r ∈ s.table) :
    r.key = paymentsKey runId ↔ r.runId = runId := by
  simp [SnapshotRun.key, paymentsKey, (h.payments r hr).1]

theorem same_row (h : ServingInv s) {x y : SnapshotRun} (hx : x ∈ s.table) (hy : y ∈ s.table)
    (same : x.key = y.key) : x = y :=
  List.inj_on_of_nodup_map h.unique hx hy same

end ServingInv

section Register

variable {a : Registration} {elapsed : Nat}

private theorem ServingInv.keeps_type (h : ServingInv s) (full : a.snapshotType = snapshotFull) :
    ∀ r ∈ s.table, r.key = a.key → r.snapshotType = a.snapshotType :=
  fun r hr _ => (h.payments r hr).2.trans full.symm

/-- A registration keeps what every state satisfies. -/
private theorem inv_registered (h : ServingInv s) (full : a.snapshotType = snapshotFull)
    (payments : a.dataset = "payments") (later : s.clock < now) :
    ServingInv { s with table := registered s.table a now, clock := now } where
  unique := nodup_keys_registered h.unique
  payments r hr := by
    rcases mem_registered.mp hr with ⟨hold, _⟩ | ⟨old, hold, _, rfl⟩ | ⟨_, rfl⟩
    · exact h.payments r hold
    · exact ⟨(h.payments old hold).1, full⟩
    · exact ⟨payments, full⟩
  staged r hr := by
    rcases mem_registered.mp hr with ⟨hold, _⟩ | ⟨old, hold, _, rfl⟩ | ⟨_, rfl⟩
    · exact (h.staged r hold).trans later.le
    · exact le_refl _
    · exact le_refl _
  past r hr t ht := by
    rcases mem_registered.mp hr with ⟨hold, _⟩ | ⟨old, hold, _, rfl⟩ | ⟨_, rfl⟩
    · exact (h.past r hold t ht).trans later.le
    · exact (h.past old hold t ht).trans later.le
    · cases ht
  distinct x hx y hy hcompleted same := by
    rcases mem_registered.mp hx with ⟨hx₀, hxk⟩ | ⟨x₀, hx₀, hxk, rfl⟩ | ⟨_, rfl⟩
    · rcases mem_registered.mp hy with ⟨hy₀, _⟩ | ⟨y₀, hy₀, hyk, rfl⟩ | ⟨_, rfl⟩
      · exact h.distinct x hx₀ y hy₀ hcompleted same
      · exact absurd (h.distinct x hx₀ y₀ hy₀ hcompleted same ▸ hyk) hxk
      · exact absurd same hcompleted
    · rcases mem_registered.mp hy with ⟨hy₀, hyk⟩ | ⟨y₀, hy₀, _, rfl⟩ | ⟨_, rfl⟩
      · exact absurd (h.distinct x₀ hx₀ y hy₀ hcompleted same ▸ hxk) hyk
      · rw [h.distinct x₀ hx₀ y₀ hy₀ hcompleted same]
      · exact absurd same hcompleted
    · exact absurd rfl hcompleted
  served := by
    rw [ServesLastCompleted, latestSnapshot_registered (h.keeps_type full), Option.map_map]
    refine Eq.trans ?_ h.served
    congr 1
    funext r
    by_cases same : r.key = a.key
    · simp [same, SnapshotRun.reregister]
    · simp [same]

/-- A registration serves the newest extract still exactly when it does not register a
completed run that is not served. -/
private theorem newest_registered_iff (h : ServingInv s) (full : a.snapshotType = snapshotFull)
    (later : s.clock < now) (newest : ServesNewestExtract s) (clock : Int) :
    ServesNewestExtract { s with table := registered s.table a now, clock := clock } ↔
      ∀ r ∈ completedFull s.table, r.key = a.key → latestSnapshot s.table = some r := by
  unfold ServesNewestExtract
  simp only [latestSnapshot_registered (h.keeps_type full),
    completedFull_registered (h.keeps_type full)]
  constructor
  · intro after r hr same
    cases hlatest : latestSnapshot s.table with
    | none =>
        rw [latestSnapshot_eq_none] at hlatest
        simp [hlatest] at hr
    | some served =>
        have hserved := (h.mem_completedFull.mp (latestSnapshot_mem hlatest)).1
        by_cases hkey : served.key = a.key
        · rw [h.same_row hserved (h.mem_completedFull.mp hr).1 (hkey.trans same.symm)]
        · have stale := after served (by rw [hlatest, Option.map_some, if_neg hkey])
            (r.reregister a now) (List.mem_map.mpr ⟨r, hr, if_pos same⟩)
          have := h.staged served hserved
          change now ≤ served.stagedAt at stale
          omega
  · intro onlyServed r hr x hx
    obtain ⟨served, hlatest, rfl⟩ := Option.map_eq_some_iff.mp hr
    obtain ⟨old, hold, rfl⟩ := List.mem_map.mp hx
    have hserved := h.staged old (h.mem_completedFull.mp hold).1
    by_cases hkey : old.key = a.key
    · have equal := onlyServed old hold hkey
      rw [hlatest] at equal
      rw [Option.some.inj equal]
    · rw [if_neg hkey]
      by_cases hserved' : served.key = a.key
      · rw [if_pos hserved']
        exact hserved.trans later.le
      · rw [if_neg hserved']
        exact newest served hlatest old hold

end Register

section Complete

variable {r₀ : SnapshotRun}

private theorem mem_completed (h : ServingInv s) (hr₀ : r₀ ∈ s.table)
    (hkey : r₀.key = paymentsKey runId) (incomplete : r₀.completedAt = none) {x : SnapshotRun} :
    x ∈ completeSnapshotRun s.table (paymentsKey runId) outcome now ↔
      (x ∈ s.table ∧ x ≠ r₀) ∨ x = r₀.complete outcome now := by
  rw [mem_completeSnapshotRun]
  refine or_congr (and_congr_right fun hx => not_congr ?_) ?_
  · exact ⟨fun hopen => h.same_row hx hr₀ (hopen.1.trans hkey.symm),
      fun equal => equal ▸ ⟨hkey, incomplete⟩⟩
  · constructor
    · rintro ⟨old, hold, same, _, rfl⟩
      rw [h.same_row hold hr₀ (same.trans hkey.symm)]
    · rintro rfl
      exact ⟨r₀, hr₀, hkey, incomplete, rfl⟩

private theorem mem_completedFull_completed (h : ServingInv s) (hr₀ : r₀ ∈ s.table)
    (hkey : r₀.key = paymentsKey runId) (incomplete : r₀.completedAt = none) {x : SnapshotRun} :
    x ∈ completedFull (completeSnapshotRun s.table (paymentsKey runId) outcome now) ↔
      x ∈ completedFull s.table ∨ x = r₀.complete outcome now := by
  rw [mem_completedFull, mem_completed h hr₀ hkey incomplete, h.mem_completedFull]
  obtain ⟨hpayments, hfull⟩ := h.payments r₀ hr₀
  constructor
  · rintro ⟨⟨hx, _⟩ | rfl, _, _, hcompleted⟩
    · exact .inl ⟨hx, hcompleted⟩
    · exact .inr rfl
  · rintro (⟨hx, hcompleted⟩ | rfl)
    · refine ⟨.inl ⟨hx, fun equal => hcompleted (equal ▸ incomplete)⟩, ?_⟩
      exact ⟨(h.payments x hx).1, (h.payments x hx).2, hcompleted⟩
    · exact ⟨.inr rfl, hpayments, hfull, by simp [SnapshotRun.complete]⟩

/-- The run that is completed is served from then on. -/
private theorem latestSnapshot_completed (h : ServingInv s) (hr₀ : r₀ ∈ s.table)
    (hkey : r₀.key = paymentsKey runId) (incomplete : r₀.completedAt = none)
    (later : s.clock < now) :
    latestSnapshot (completeSnapshotRun s.table (paymentsKey runId) outcome now) =
      some (r₀.complete outcome now) := by
  refine Sql.latestOf_eq_some
    ((mem_completedFull_completed h hr₀ hkey incomplete).mpr (.inr rfl)) rfl ?_ ?_
  · intro x hx _
    rcases (mem_completedFull_completed h hr₀ hkey incomplete).mp hx with hold | rfl
    · obtain ⟨hx, hcompleted⟩ := h.mem_completedFull.mp hold
      obtain ⟨t, ht⟩ := Option.ne_none_iff_exists'.mp hcompleted
      have := h.past x hx t ht
      simp only [ht, SnapshotRun.complete, Sql.nullsFirst_some, WithTop.coe_le_coe]
      omega
    · exact le_refl _
  · intro x hx _ same
    rcases (mem_completedFull_completed h hr₀ hkey incomplete).mp hx with hold | rfl
    · have ht : x.completedAt = some now := Sql.nullsFirst_inj.mp same
      have := h.past x (h.mem_completedFull.mp hold).1 now ht
      omega
    · rfl

private theorem inv_completed (h : ServingInv s) (hr₀ : r₀ ∈ s.table)
    (hkey : r₀.key = paymentsKey runId) (incomplete : r₀.completedAt = none)
    (later : s.clock < now) :
    ServingInv
      { table := completeSnapshotRun s.table (paymentsKey runId) outcome now
        clock := now
        lastCompleted := some runId } where
  unique := by
    rw [keys_completeSnapshotRun]
    exact h.unique
  payments r hr := by
    rcases (mem_completed h hr₀ hkey incomplete).mp hr with ⟨hold, _⟩ | rfl
    · exact h.payments r hold
    · exact h.payments r₀ hr₀
  staged r hr := by
    rcases (mem_completed h hr₀ hkey incomplete).mp hr with ⟨hold, _⟩ | rfl
    · exact (h.staged r hold).trans later.le
    · exact (h.staged r₀ hr₀).trans later.le
  past r hr t ht := by
    rcases (mem_completed h hr₀ hkey incomplete).mp hr with ⟨hold, _⟩ | rfl
    · exact (h.past r hold t ht).trans later.le
    · exact (Option.some.inj ht).ge
  distinct x hx y hy hcompleted same := by
    rcases (mem_completed h hr₀ hkey incomplete).mp hx with ⟨hx, _⟩ | rfl
    · rcases (mem_completed h hr₀ hkey incomplete).mp hy with ⟨hy, _⟩ | rfl
      · exact h.distinct x hx y hy hcompleted same
      · have := h.past x hx now same
        omega
    · rcases (mem_completed h hr₀ hkey incomplete).mp hy with ⟨hy, _⟩ | rfl
      · have := h.past y hy now same.symm
        omega
      · rfl
  served := by
    rw [ServesLastCompleted, latestSnapshot_completed h hr₀ hkey incomplete later]
    exact congrArg some ((h.key_eq hr₀).mp hkey)

/-- A completion serves the newest extract still exactly when no completed run was
staged later. -/
private theorem newest_completed_iff (h : ServingInv s) (hr₀ : r₀ ∈ s.table)
    (hkey : r₀.key = paymentsKey runId) (incomplete : r₀.completedAt = none)
    (later : s.clock < now) (last : Option String) :
    ServesNewestExtract
      { table := completeSnapshotRun s.table (paymentsKey runId) outcome now
        clock := now
        lastCompleted := last } ↔
      ∀ x ∈ completedFull s.table, x.stagedAt ≤ r₀.stagedAt := by
  unfold ServesNewestExtract
  simp only [latestSnapshot_completed h hr₀ hkey incomplete later]
  constructor
  · intro after x hx
    exact after _ rfl x ((mem_completedFull_completed h hr₀ hkey incomplete).mpr (.inl hx))
  · rintro newest r ⟨⟩ x hx
    rcases (mem_completedFull_completed h hr₀ hkey incomplete).mp hx with hold | rfl
    · exact newest x hold
    · exact le_refl _

end Complete

theorem servingStep_register (s : ServingState) (elapsed : Nat) (runId : String) (runDate : Date)
    (expectedParts expectedRows : Int) :
    servingStep s (elapsed, .register runId runDate expectedParts expectedRows) =
      { s with
        table := registered s.table (fullPayments runId runDate expectedParts expectedRows)
          (s.clock + 1 + elapsed)
        clock := s.clock + 1 + elapsed } := by
  have known : (fullPayments runId runDate expectedParts expectedRows).snapshotType ∈
      [snapshotFull, snapshotWindow] := List.mem_cons_self
  simp only [servingStep, registerSnapshotRun_eq, if_pos known]

theorem servingStep_complete_of_not (closed : ¬Completable s.table runId) (elapsed : Nat) :
    servingStep s (elapsed, .complete runId outcome) =
      { s with clock := s.clock + 1 + elapsed } := by
  have unchanged : completeSnapshotRun s.table (paymentsKey runId) outcome
      (s.clock + 1 + elapsed) = s.table :=
    completeSnapshotRun_eq_self fun r hr same open_ => closed ⟨r, hr, same, open_⟩
  simp only [servingStep, unchanged, if_neg closed]

theorem servingInv_init : ServingInv ServingState.init where
  unique := List.nodup_nil
  payments r hr := by cases hr
  staged r hr := by cases hr
  past r hr := by cases hr
  distinct x hx := by cases hx
  served := rfl

theorem servingInv_step (h : ServingInv s) (step : Nat × ServingAction) :
    ServingInv (servingStep s step) := by
  obtain ⟨elapsed, action⟩ := step
  have later : s.clock < s.clock + 1 + elapsed := by omega
  cases action with
  | register runId runDate expectedParts expectedRows =>
      rw [servingStep_register]
      exact inv_registered h rfl rfl later
  | complete runId outcome =>
      by_cases hopen : Completable s.table runId
      · obtain ⟨r₀, hr₀, hkey, incomplete⟩ := id hopen
        simp only [servingStep, if_pos hopen]
        exact inv_completed h hr₀ hkey incomplete later
      · rw [servingStep_complete_of_not hopen]
        exact ⟨h.unique, h.payments, fun r hr => (h.staged r hr).trans later.le,
          fun r hr t ht => (h.past r hr t ht).trans later.le, h.distinct, h.served⟩

/-- The step keeps serving the newest extract exactly under the guard. -/
theorem servesNewest_step_iff (h : ServingInv s) (newest : ServesNewestExtract s)
    (step : Nat × ServingAction) :
    ServesNewestExtract (servingStep s step) ↔ KeepsNewestExtract s step := by
  obtain ⟨elapsed, action⟩ := step
  have later : s.clock < s.clock + 1 + elapsed := by omega
  cases action with
  | register runId runDate expectedParts expectedRows =>
      rw [servingStep_register, newest_registered_iff h rfl later newest]
      refine forall₂_congr fun r hr => ?_
      exact imp_congr_left (h.key_eq (h.mem_completedFull.mp hr).1)
  | complete runId outcome =>
      by_cases hopen : Completable s.table runId
      · obtain ⟨r₀, hr₀, hkey, incomplete⟩ := id hopen
        simp only [servingStep, if_pos hopen]
        rw [newest_completed_iff h hr₀ hkey incomplete later]
        constructor
        · intro oldest r hr hrun _
          rw [h.same_row hr hr₀ (((h.key_eq hr).mpr hrun).trans hkey.symm)]
          exact oldest
        · intro guard
          exact guard r₀ hr₀ ((h.key_eq hr₀).mp hkey) incomplete
      · rw [servingStep_complete_of_not hopen]
        refine iff_of_true newest fun r hr hrun incomplete => ?_
        exact absurd ⟨r, hr, (h.key_eq hr).mpr hrun, incomplete⟩ hopen

/-- In every state the served run is the one completed last; it is the newest extract
throughout exactly when no run is completed after a later extract has been, and no
completed run but the served one is registered again. -/
theorem serving_iff (steps : List (Nat × ServingAction)) :
    Machine.Always servingStep ServesLastCompleted ServingState.init steps ∧
      (Machine.Always servingStep ServesNewestExtract ServingState.init steps ↔
        Machine.Along servingStep KeepsNewestExtract ServingState.init steps) := by
  constructor
  · exact (Machine.always_of_invariant servingInv_init fun _ step h => servingInv_step h step).mono
      fun _ h => h.served
  · refine Machine.always_iff_along servingInv_init (fun _ step h => servingInv_step h step) ?_
      fun _ step h newest => servesNewest_step_iff h newest step
    intro r hr
    cases hr

/-- Run A is staged before run B, and completed after it. -/
def lateCompletion : List (Nat × ServingAction) :=
  [(0, .register "A" .sample 1 5), (0, .register "B" ⟨2026, 9, 5, by decide⟩ 1 5),
   (0, .complete "B" { files := ["part-00001"], rowsLoaded := 5, skipped := [] }),
   (0, .complete "A" { files := ["part-00001"], rowsLoaded := 5, skipped := [] })]

theorem lateCompletion_serves_old :
    ((latestSnapshot (Machine.run servingStep ServingState.init lateCompletion).table).map
      fun r => (r.runId, r.stagedAt)) = some ("A", 1) ∧
    ¬Machine.Always servingStep ServesNewestExtract ServingState.init lateCompletion := by
  have served :
      (latestSnapshot (Machine.run servingStep ServingState.init lateCompletion).table).map
        (fun r => (r.runId, r.stagedAt)) = some ("A", 1) := by decide
  refine ⟨served, fun always => ?_⟩
  obtain ⟨a, ha, hrow⟩ := Option.map_eq_some_iff.mp served
  have newer : ∃ b ∈ completedFull (Machine.run servingStep ServingState.init lateCompletion).table,
      1 < b.stagedAt := by decide
  obtain ⟨b, hb, hlater⟩ := newer
  have := always.final a ha b hb
  simp only [Prod.mk.injEq] at hrow
  omega

end PaymentsPlatform.Snowflake
