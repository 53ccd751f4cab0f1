import PaymentsPlatform.Snowflake.Landing
import PaymentsPlatform.Text.Words

/-!
# The identity of a staging run

`sanitize_run_id` of `snowflake_etl/src/stage_to_s3.py` decides which run a part object and
a row of `SNAPSHOT_RUNS` belong to. It does not tell a `+` from a `-`, or one foreign
character from several, so the offsets `+01:00` and `-01:00` read alike. `apart_iff` says
which run ids are kept apart.
-/

namespace PaymentsPlatform.Snowflake

/-- A character of a word. -/
def isWordChar (c : Char) : Bool := c.isAlphanum || c == '_'

/-- Run ids with the same words of letters, digits and underscores, and between each two of
them as many separators, where a separator is a dash or a maximal run of other
characters. -/
def ReadAlike (runId runId' : String) : Prop :=
  Text.Alike isWordChar '-' runId.toList runId'.toList

/-- Two runs of a dataset on one day that do not touch each other: neither puts an object
of the other, and their rows are two. -/
structure Apart (dataset : String) (runDate : Date) (pre runId runId' : String) : Prop where
  prefixes : snapshotPrefix dataset runDate runId pre ≠ snapshotPrefix dataset runDate runId' pre
  parts : ∀ keyPrefix keyPrefix', snapshotPrefix dataset runDate runId pre = .ok keyPrefix →
    snapshotPrefix dataset runDate runId' pre = .ok keyPrefix' →
      ∀ i j, partKey keyPrefix i ≠ partKey keyPrefix' j
  rows : ∀ id id', sanitizeRunId runId = .ok id → sanitizeRunId runId' = .ok id' →
    (dataset, id) ≠ (dataset, id')

variable {dataset pre runId runId' id id' : String} {runDate : Date}

/-- What is left of a run id. -/
theorem cleaned_of_sanitized (h : sanitizeRunId runId = .ok id) :
    id.toList = Text.strip (· == '-')
      (Text.replaceRuns (Text.foreign isWordChar '-') '-' runId.toList) ∧ id.toList ≠ [] := by
  unfold sanitizeRunId at h
  simp only at h
  split at h
  · cases h
  · rename_i usable
    obtain rfl := Except.ok.inj h
    rw [String.toList_ofList]
    exact ⟨rfl, usable⟩

theorem exists_word_of_sanitized (h : sanitizeRunId runId = .ok id) :
    ∃ c ∈ runId.toList, isWordChar c = true := by
  by_contra none
  obtain ⟨cleaned, usable⟩ := cleaned_of_sanitized h
  refine usable (cleaned.trans (Text.strip_replaceRuns_gap fun c hc => ?_))
  by_contra hne
  exact none ⟨c, hc, by simpa using hne⟩

/-- Staging tells two run ids apart exactly when they do not read alike. -/
theorem sanitized_eq_iff (h : sanitizeRunId runId = .ok id) (h' : sanitizeRunId runId' = .ok id') :
    id = id' ↔ ReadAlike runId runId' := by
  rw [← String.toList_inj, (cleaned_of_sanitized h).1, (cleaned_of_sanitized h').1]
  exact Text.alike_iff (by decide) (exists_word_of_sanitized h) (exists_word_of_sanitized h')

theorem snapshotPrefix_of_sanitized (dataset : String) (runDate : Date) (pre : String)
    (h : sanitizeRunId runId = .ok id) : snapshotPrefix dataset runDate runId pre =
      .ok (partitionPrefix pre dataset runDate ++ "run=" ++ id ++ "/") := by
  rw [snapshotPrefix, h]
  rfl

/-- A part key under the prefixes of two ids names one of them only. -/
theorem id_eq_of_partKey_eq {common : String} {i j : Nat} (clean : '/' ∉ id.toList)
    (clean' : '/' ∉ id'.toList)
    (h : partKey (common ++ id ++ "/") i = partKey (common ++ id' ++ "/") j) : id = id' := by
  have chars := congrArg String.toList h
  simp only [partKey_toList, String.toList_append, List.append_assoc,
    List.append_cancel_left_eq] at chars
  have other : ∀ s : List Char, '/' ∉ s → ∀ c ∈ s, (c != '/') = true :=
    fun s clean c hc => bne_iff_ne.mpr (ne_of_mem_of_not_mem hc clean)
  refine String.toList_inj.mp (Text.append_inj_of_span (other _ clean) (other _ clean') ?_ ?_
    chars).1
  · rintro _ ⟨⟩
    rfl
  · rintro _ ⟨⟩
    rfl

/-- Two accepted run ids give runs apart from each other exactly when they do not read
alike. -/
theorem apart_iff (dataset : String) (runDate : Date) (pre runId runId' : String)
    (usable : ∃ id, sanitizeRunId runId = .ok id) (usable' : ∃ id, sanitizeRunId runId' = .ok id) :
    Apart dataset runDate pre runId runId' ↔ ¬ReadAlike runId runId' := by
  obtain ⟨id, h⟩ := usable
  obtain ⟨id', h'⟩ := usable'
  rw [← sanitized_eq_iff h h']
  constructor
  · rintro apart rfl
    exact apart.rows id id h h' rfl
  · intro distinct
    have clean : ∀ {runId id}, sanitizeRunId runId = .ok id → '/' ∉ id.toList := fun h hslash =>
      absurd ((isRunIdChar_of_sanitized h).2 '/' hslash) (by decide)
    have parts : ∀ i j,
        partKey (partitionPrefix pre dataset runDate ++ "run=" ++ id ++ "/") i ≠
          partKey (partitionPrefix pre dataset runDate ++ "run=" ++ id' ++ "/") j :=
      fun i j same => distinct (id_eq_of_partKey_eq (clean h) (clean h') same)
    have hp := snapshotPrefix_of_sanitized dataset runDate pre h
    have hp' := snapshotPrefix_of_sanitized dataset runDate pre h'
    refine ⟨fun same => ?_, ?_, ?_⟩
    · rw [hp, hp'] at same
      exact parts 0 0 (congrArg (partKey · 0) (Except.ok.inj same))
    · rintro _ _ hprefix hprefix' i j
      obtain rfl := Except.ok.inj (hp.symm.trans hprefix)
      obtain rfl := Except.ok.inj (hp'.symm.trans hprefix')
      exact parts i j
    · rintro _ _ hid hid' same
      obtain rfl := Except.ok.inj (h.symm.trans hid)
      obtain rfl := Except.ok.inj (h'.symm.trans hid')
      exact distinct (Prod.mk.inj same).2

theorem apart_iff_sample : Apart "payments" .sample defaultPrefix "run-a" "run-b" := by
  refine (apart_iff "payments" .sample defaultPrefix "run-a" "run-b" ⟨"run-a", by decide⟩
    ⟨"run-b", by decide⟩).mpr fun alike => ?_
  have same : "run-a" = "run-b" := (sanitized_eq_iff (by decide) (by decide)).mpr alike
  exact absurd same (by decide)

/-- Two timestamps whose UTC offsets have opposite signs give one prefix. -/
theorem offsets_not_apart :
    let runId := "manual__2026-09-04T10:00:00+01:00"
    let runId' := "manual__2026-09-04T10:00:00-01:00"
    runId ≠ runId' ∧ sanitizeRunId runId = .ok "manual__2026-09-04T10-00-00-01-00" ∧
      sanitizeRunId runId' = .ok "manual__2026-09-04T10-00-00-01-00" ∧
        ¬Apart "payments" .sample defaultPrefix runId runId' := by
  refine ⟨by decide, by decide +kernel, by decide +kernel, fun apart => ?_⟩
  exact apart.prefixes (by decide +kernel)

end PaymentsPlatform.Snowflake
