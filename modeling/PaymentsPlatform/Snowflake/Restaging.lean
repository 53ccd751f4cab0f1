import PaymentsPlatform.Snowflake.Staging

/-!
# Staging one run again

Airflow retries and cleared tasks call `stage_dataset` again for the same run, so that
several attempts write under one prefix. Part keys are positional and nothing is ever
deleted: an attempt replaces the parts it has itself, and leaves those that an earlier,
longer attempt stored beyond its last one.
-/

namespace PaymentsPlatform.Snowflake

variable {Line : Type}

/-- The arguments that stay the same when a run is staged again. -/
structure RunArgs where
  dataset : String
  runDate : Date
  runId : String
  pre : String

/-- One call of `stage_dataset`, with its records, its chunk size and the number of
puts until an exception stops it. -/
structure Attempt (Line : Type) where
  records : List Line
  chunkRows : Int
  patience : Option Nat

def RunArgs.stage (run : RunArgs) (bucket : Bucket Line) (a : Attempt Line) :
    EStateM.Result StagingError (S3 Line) StagedSnapshot :=
  (stageDataset run.dataset a.records run.runId run.runDate run.pre a.chunkRows).run
    { objects := bucket, patience := a.patience }

/-- The bucket after an attempt, returned from or raised out of. -/
def RunArgs.afterAttempt (run : RunArgs) (bucket : Bucket Line) (a : Attempt Line) : Bucket Line :=
  match run.stage bucket a with
  | .ok _ s3 => s3.objects
  | .error _ s3 => s3.objects

/-- The bodies an attempt stores before it ends. -/
def Attempt.storedBodies (a : Attempt Line) : List (List Line) :=
  if a.chunkRows < 1 then []
  else
    match a.patience with
    | none => stagedBodies a.records a.chunkRows
    | some p => (stagedBodies a.records a.chunkRows).take p

/-- The prefix of the run, when its id is usable. -/
def RunArgs.keyPrefix (run : RunArgs) (id : String) : String :=
  partitionPrefix run.pre run.dataset run.runDate ++ "run=" ++ id ++ "/"

variable {run : RunArgs} {bucket : Bucket Line} {a : Attempt Line} {id key : String}
variable {s : StagedSnapshot} {s3 : S3 Line}

private theorem take_partObjects (keyPrefix : String) (before p : Nat)
    (bodies : List (List Line)) : (partObjects keyPrefix before bodies).take p =
      partObjects keyPrefix before (bodies.take p) := by
  induction bodies generalizing before p with
  | nil => simp [partObjects]
  | cons body bodies ih =>
      cases p with
      | zero => rfl
      | succ p => rw [partObjects, List.take_succ_cons, ih, List.take_succ_cons, partObjects]

private theorem length_partObjects (keyPrefix : String) (before : Nat)
    (bodies : List (List Line)) : (partObjects keyPrefix before bodies).length = bodies.length := by
  rw [← List.length_map Prod.snd, map_snd_partObjects]

/-- The puts of an attempt that gets as far as putting, and its result. -/
private theorem stage_eq (hid : sanitizeRunId run.runId = .ok id) (hrows : 1 ≤ a.chunkRows) :
    run.stage bucket a =
      match (putAll (partObjects (run.keyPrefix id) 0 (stagedBodies a.records a.chunkRows))).run
        ({ objects := bucket, patience := a.patience } : S3 Line) with
      | .ok _ s3 => .ok
          { dataset := run.dataset, runId := id, runDate := run.runDate,
            keyPrefix := run.keyPrefix id,
            parts := (stagedObjects (run.keyPrefix id) a.records a.chunkRows).map Prod.fst,
            rowCount := a.records.length } s3
      | .error e s3 => .error e s3 := by
  rw [RunArgs.stage, stageDataset_eq hid hrows]
  simp only [bind, EStateM.bind, EStateM.run, stagedObjects, RunArgs.keyPrefix]
  cases putAll (partObjects (partitionPrefix run.pre run.dataset run.runDate ++ "run=" ++ id ++ "/")
    0 (stagedBodies a.records a.chunkRows)) { objects := bucket, patience := a.patience } <;> rfl

private theorem stage_of_chunkRows (hid : sanitizeRunId run.runId = .ok id)
    (hrows : a.chunkRows < 1) :
    run.stage bucket a = .error .chunkRows { objects := bucket, patience := a.patience } := by
  have hprefix : snapshotPrefix run.dataset run.runDate run.runId run.pre =
      .ok (run.keyPrefix id) := by
    rw [snapshotPrefix, hid]
    rfl
  have hchunks : iterJsonlChunks a.records a.chunkRows = .error .chunkRows := if_pos hrows
  simp only [RunArgs.stage, stageDataset, hprefix, hchunks, orRaise, pure_bind]
  rfl

private theorem stage_of_runId {e : StagingError} (hid : sanitizeRunId run.runId = .error e) :
    run.stage bucket a = .error e { objects := bucket, patience := a.patience } := by
  have hprefix : snapshotPrefix run.dataset run.runDate run.runId run.pre = .error e := by
    rw [snapshotPrefix, hid]
    rfl
  simp only [RunArgs.stage, stageDataset, hprefix, orRaise]
  rfl

/-- An attempt stores its bodies under consecutive part keys, and does nothing else. -/
theorem afterAttempt_eq (hid : sanitizeRunId run.runId = .ok id) (bucket : Bucket Line)
    (a : Attempt Line) : run.afterAttempt bucket a =
      store bucket (partObjects (run.keyPrefix id) 0 a.storedBodies) := by
  by_cases hrows : a.chunkRows < 1
  · rw [RunArgs.afterAttempt, stage_of_chunkRows hid hrows, Attempt.storedBodies, if_pos hrows]
    rfl
  · rw [RunArgs.afterAttempt, stage_eq hid (Int.not_lt.mp hrows), Attempt.storedBodies,
      if_neg hrows]
    cases hp : a.patience with
    | none => rw [putAll_run_ok (by simp)]
    | some p =>
        by_cases short : p < (stagedBodies a.records a.chunkRows).length
        · rw [putAll_run_interrupted rfl (by rwa [length_partObjects]), take_partObjects]
        · have whole : (stagedBodies a.records a.chunkRows).take p =
              stagedBodies a.records a.chunkRows := List.take_of_length_le (not_lt.mp short)
          rw [putAll_run_ok]
          · simp only [whole]
          · intro q hq
            rw [length_partObjects, ← Option.some.inj hq]
            exact not_lt.mp short

/-- What an attempt that returns has done. -/
theorem stage_ok (h : run.stage bucket a = .ok s s3) :
    ∃ id, sanitizeRunId run.runId = .ok id ∧ a.storedBodies = stagedBodies a.records a.chunkRows ∧
      s = { dataset := run.dataset, runId := id, runDate := run.runDate,
            keyPrefix := run.keyPrefix id,
            parts := (stagedObjects (run.keyPrefix id) a.records a.chunkRows).map Prod.fst,
            rowCount := a.records.length } ∧
      s3.objects = store bucket (stagedObjects (run.keyPrefix id) a.records a.chunkRows) := by
  cases hid : sanitizeRunId run.runId with
  | error e =>
      rw [stage_of_runId hid] at h
      cases h
  | ok id =>
      by_cases hrows : a.chunkRows < 1
      · rw [stage_of_chunkRows hid hrows] at h
        cases h
      · have after := afterAttempt_eq hid bucket a
        rw [RunArgs.afterAttempt, h] at after
        rw [stage_eq hid (Int.not_lt.mp hrows)] at h
        have whole : a.storedBodies = stagedBodies a.records a.chunkRows := by
          rw [Attempt.storedBodies, if_neg hrows]
          cases hp : a.patience with
          | none => rfl
          | some p =>
              by_cases short : p < (stagedBodies a.records a.chunkRows).length
              · rw [hp, putAll_run_interrupted rfl (by rwa [length_partObjects])] at h
                cases h
              · exact List.take_of_length_le (not_lt.mp short)
        rw [whole] at after
        refine ⟨id, rfl, whole, ?_, after⟩
        split at h
        · exact (EStateM.Result.ok.inj h).1.symm
        · cases h

/-- The objects after a number of attempts. -/
theorem mem_afterAttempts (hid : sanitizeRunId run.runId = .ok id) (bucket : Bucket Line)
    (attempts : List (Attempt Line)) : key ∈ attempts.foldl run.afterAttempt bucket ↔
      key ∈ bucket ∨ ∃ a ∈ attempts, ∃ i, 0 < i ∧ i ≤ a.storedBodies.length ∧
        key = partKey (run.keyPrefix id) i := by
  induction attempts generalizing bucket with
  | nil => simp
  | cons a attempts ih =>
      rw [List.foldl_cons, ih, afterAttempt_eq hid, mem_store, mem_keys_partObjects]
      simp [or_assoc]

/-- The keys an attempt that returns lists are its part keys. -/
theorem mem_keys_stagedObjects {keyPrefix : String} {records : List Line}
    {chunkRows : Int} : key ∈ (stagedObjects keyPrefix records chunkRows).map Prod.fst ↔
      ∃ i, 0 < i ∧ i ≤ (stagedBodies records chunkRows).length ∧ key = partKey keyPrefix i := by
  rw [stagedObjects, mem_keys_partObjects, Nat.zero_add]

/-- What lies under the prefix of a run after all its attempts. -/
private theorem mem_staged (hid : sanitizeRunId run.runId = .ok id)
    (earlier : List (Attempt Line)) (last : Attempt Line)
    (fresh : ∀ key ∈ bucket, ¬(run.keyPrefix id).toList <+: key.toList)
    (under : (run.keyPrefix id).toList <+: key.toList) :
    key ∈ store (earlier.foldl run.afterAttempt bucket)
        (stagedObjects (run.keyPrefix id) last.records last.chunkRows) ↔
      ∃ i, 0 < i ∧ (i ≤ (stagedBodies last.records last.chunkRows).length ∨
        ∃ a ∈ earlier, i ≤ a.storedBodies.length) ∧ key = partKey (run.keyPrefix id) i := by
  rw [mem_store, mem_afterAttempts hid, mem_keys_stagedObjects]
  constructor
  · rintro ((hold | ⟨a, ha, i, hpos, hi, rfl⟩) | ⟨i, hpos, hi, rfl⟩)
    · exact absurd under (fresh key hold)
    · exact ⟨i, hpos, .inr ⟨a, ha, hi⟩, rfl⟩
    · exact ⟨i, hpos, .inl hi, rfl⟩
  · rintro ⟨i, hpos, hi | ⟨a, ha, hi⟩, rfl⟩
    · exact .inr ⟨i, hpos, hi, rfl⟩
    · exact .inl (.inr ⟨a, ha, i, hpos, hi, rfl⟩)

/-- There is nothing but the last parts exactly when no earlier attempt stored more. -/
private theorem only_last_parts_iff {keyPrefix : String} {records : List Line}
    {chunkRows : Int} {earlier : List (Attempt Line)} {stored : String → Prop}
    (contents : ∀ key, keyPrefix.toList <+: key.toList → (stored key ↔
      ∃ i, 0 < i ∧ (i ≤ (stagedBodies records chunkRows).length ∨
        ∃ a ∈ earlier, i ≤ a.storedBodies.length) ∧ key = partKey keyPrefix i)) :
    (∀ key, keyPrefix.toList <+: key.toList →
      (stored key ↔ key ∈ (stagedObjects keyPrefix records chunkRows).map Prod.fst)) ↔
      ∀ a ∈ earlier, a.storedBodies.length ≤ (stagedBodies records chunkRows).length := by
  constructor
  · intro exactly a ha
    by_contra hlong
    have longer := not_le.mp hlong
    have under := prefix_partKey keyPrefix a.storedBodies.length
    have hmem := (contents _ under).mpr
      ⟨a.storedBodies.length, by omega, .inr ⟨a, ha, le_refl _⟩, rfl⟩
    obtain ⟨i, _, hi, hkey⟩ := mem_keys_stagedObjects.mp ((exactly _ under).mp hmem)
    have := partKey_injective _ hkey
    omega
  · intro short key hunder
    rw [contents key hunder, mem_keys_stagedObjects]
    constructor
    · rintro ⟨i, hpos, hi | ⟨a, ha, hi⟩, rfl⟩
      · exact ⟨i, hpos, hi, rfl⟩
      · exact ⟨i, hpos, hi.trans (short a ha), rfl⟩
    · rintro ⟨i, hpos, hi, rfl⟩
      exact ⟨i, hpos, .inl hi, rfl⟩

/-- After any attempts for a run the last of which returns: its parts hold its records,
in order; the objects under the prefix are these parts and the parts that earlier
attempts stored; and there is nothing but the returned parts exactly when no earlier
attempt stored more parts than the last one. -/
theorem restaging_leaves (earlier : List (Attempt Line)) (last : Attempt Line)
    (h : run.stage (earlier.foldl run.afterAttempt bucket) last = .ok s s3)
    (fresh : ∀ key ∈ bucket, ¬s.keyPrefix.toList <+: key.toList) :
    s.parts.flatMap (fun key => (s3.objects.lookup key).getD []) = last.records ∧
      s.rowCount = last.records.length ∧
      (∀ key, s.keyPrefix.toList <+: key.toList → (key ∈ s3.objects ↔ ∃ i, 0 < i ∧
        (i ≤ s.partCount ∨ ∃ a ∈ earlier, i ≤ a.storedBodies.length) ∧
          key = partKey s.keyPrefix i)) ∧
      ((∀ key, s.keyPrefix.toList <+: key.toList → (key ∈ s3.objects ↔ key ∈ s.parts)) ↔
        ∀ a ∈ earlier, a.storedBodies.length ≤ s.partCount) := by
  obtain ⟨id, hid, _, rfl, hobjects⟩ := stage_ok h
  have count : ((stagedObjects (run.keyPrefix id) last.records last.chunkRows).map
      Prod.fst).length = (stagedBodies last.records last.chunkRows).length := by
    rw [stagedObjects, List.length_map, length_partObjects]
  have contents : ∀ key, (run.keyPrefix id).toList <+: key.toList → (key ∈ s3.objects ↔ _) :=
    fun key under => hobjects ▸ mem_staged hid earlier last fresh under
  refine ⟨?_, rfl, ?_, ?_⟩
  · rw [hobjects]
    refine (flatMap_lookup_store (nodup_keys_partObjects _ _ _)).trans ?_
    rw [map_snd_partObjects, flatten_stagedBodies]
  · simpa only [StagedSnapshot.partCount, count] using contents
  · simp only [StagedSnapshot.partCount, count]
    exact only_last_parts_iff contents

/-- A run of the payments extract. -/
def sampleRun : RunArgs :=
  { dataset := "payments", runDate := .sample, runId := "manual__2026-09-04",
    pre := defaultPrefix }

/-- Three parts, all stored. -/
def longAttempt : Attempt Nat := { records := [1, 2, 3], chunkRows := 1, patience := none }

/-- One part. -/
def shortAttempt : Attempt Nat := { records := [9], chunkRows := 1, patience := none }

theorem restaging_leaves_sample : ∃ s s3,
    sampleRun.stage (sampleRun.afterAttempt ∅ longAttempt) shortAttempt = .ok s s3 ∧
      s.parts.flatMap (fun key => (s3.objects.lookup key).getD []) = [9] := by
  obtain ⟨s, s3, h⟩ : ∃ s s3,
      sampleRun.stage (sampleRun.afterAttempt ∅ longAttempt) shortAttempt = .ok s s3 := ⟨_, _, rfl⟩
  exact ⟨s, s3, h, (restaging_leaves [longAttempt] shortAttempt h
    fun key hmem => absurd hmem (AList.notMem_empty key)).1⟩

/-- After the second attempt the prefix still holds the third part of the first one. -/
theorem restaging_keeps_old_parts : ∃ s s3,
    sampleRun.stage (sampleRun.afterAttempt ∅ longAttempt) shortAttempt = .ok s s3 ∧
      s.rowCount = 1 ∧ s3.objects.lookup (partKey s.keyPrefix 3) = some [3] ∧
      ¬∀ key, s.keyPrefix.toList <+: key.toList → (key ∈ s3.objects ↔ key ∈ s.parts) := by
  refine ⟨_, _, rfl, rfl, by decide, fun exactly => ?_⟩
  exact absurd ((exactly _ (prefix_partKey _ 3)).mp (by decide)) (by decide)

end PaymentsPlatform.Snowflake
