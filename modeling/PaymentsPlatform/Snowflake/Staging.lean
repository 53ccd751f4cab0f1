import PaymentsPlatform.Text.Capture
import PaymentsPlatform.Text.Runs
import PaymentsPlatform.Time.Calendar

/-!
# Staging an extract to S3

`snowflake_etl/src/stage_to_s3.py`: records become newline-delimited JSON, chunked
into part objects under the prefix of their run. A body is the list of its lines, of
any type; a bucket is a finite map from keys to bodies, so that `put_object` replaces
the object that has the key.

Staging can stop with an exception at any object: the extract may fail while it is
read, or the client on a put. Both leave the objects put so far, and `S3.patience`
counts the puts until that happens.
-/

namespace PaymentsPlatform.Snowflake

/-- The `ValueError`s of staging, and the exception that stops an attempt. -/
inductive StagingError where
  | chunkRows
  | unusableRunId (runId : String)
  | interrupted
  deriving DecidableEq, Repr

/-- A character that is kept in a run id. -/
def isRunIdChar (c : Char) : Bool := c.isAlphanum || c == '_' || c == '-'

/-- Reduce a run id to characters that read back out of a key. -/
def sanitizeRunId (runId : String) : Except StagingError String :=
  let cleaned := Text.strip (· == '-')
    (Text.replaceRuns (fun c => !isRunIdChar c) '-' runId.toList)
  if cleaned = [] then .error (.unusableRunId runId) else .ok (String.ofList cleaned)

def defaultPrefix : String := "raw"

/-- The part of the key that a COPY reads: one dataset and one date. -/
def partitionPrefix (pre dataset : String) (runDate : Date) : String :=
  pre ++ "/" ++ dataset ++ "/dt=" ++ runDate.isoformat ++ "/"

def snapshotPrefix (dataset : String) (runDate : Date) (runId : String) (pre : String) :
    Except StagingError String := do
  let runId ← sanitizeRunId runId
  return partitionPrefix pre dataset runDate ++ "run=" ++ runId ++ "/"

variable {Line : Type}

/-- The loop of `iter_jsonl_chunks`, with the lines it has collected. -/
def chunksFrom (chunkRows : Nat) (lines : List Line) : List Line → List (List Line)
  | [] => if lines.isEmpty then [] else [lines]
  | record :: records =>
      if chunkRows ≤ (lines ++ [record]).length then
        (lines ++ [record]) :: chunksFrom chunkRows [] records
      else chunksFrom chunkRows (lines ++ [record]) records

/-- `iter_jsonl_chunks`: the bodies with their row counts. -/
def iterJsonlChunks (records : List Line) (chunkRows : Int) :
    Except StagingError (List (List Line × Nat)) :=
  if chunkRows < 1 then .error .chunkRows
  else .ok ((chunksFrom chunkRows.toNat [] records).map fun lines => (lines, lines.length))

/-- What one staging run wrote. -/
structure StagedSnapshot where
  dataset : String
  runId : String
  runDate : Date
  keyPrefix : String
  parts : List String
  rowCount : Nat
  deriving DecidableEq, Repr

def StagedSnapshot.partCount (s : StagedSnapshot) : Nat := s.parts.length

/-- The objects of a bucket. -/
abbrev Bucket (Line : Type) := AList fun _ : String => List Line

/-- The bucket, and the number of puts until an exception stops the attempt. -/
structure S3 (Line : Type) where
  objects : Bucket Line
  patience : Option Nat

abbrev Staging (Line : Type) := EStateM StagingError (S3 Line)

def putObject (key : String) (body : List Line) : Staging Line Unit := do
  let s3 ← get
  match s3.patience with
  | none => set { s3 with objects := s3.objects.insert key body }
  | some 0 => throw .interrupted
  | some (n + 1) => set { objects := s3.objects.insert key body, patience := some n : S3 Line }

/-- The key of a part. -/
def partKey (keyPrefix : String) (index : Nat) : String :=
  keyPrefix ++ "part-" ++ String.ofList (Text.zeroPadded 5 index) ++ ".jsonl"

/-- The loop over the chunks, with the parts and the row total so far. -/
def putParts (keyPrefix : String) : List (List Line × Nat) → List String → Nat →
    Staging Line (List String × Nat)
  | [], parts, total => return (parts, total)
  | (body, rows) :: chunks, parts, total => do
      let key := partKey keyPrefix (parts.length + 1)
      putObject key body
      putParts keyPrefix chunks (parts ++ [key]) (total + rows)

/-- An exception of a pure computation. -/
def orRaise {α : Type} : Except StagingError α → Staging Line α
  | .ok a => pure a
  | .error e => throw e

def stageDataset (dataset : String) (records : List Line) (runId : String) (runDate : Date)
    (pre : String) (chunkRows : Int) : Staging Line StagedSnapshot := do
  let keyPrefix ← orRaise (snapshotPrefix dataset runDate runId pre)
  let chunks ← orRaise (iterJsonlChunks records chunkRows)
  let (parts, total) ← putParts keyPrefix chunks [] 0
  let parts ← if parts.isEmpty then do
      putObject (partKey keyPrefix 1) []
      pure [partKey keyPrefix 1]
    else pure parts
  let runId ← orRaise (sanitizeRunId runId)
  return { dataset := dataset, runId := runId, runDate := runDate, keyPrefix := keyPrefix,
           parts := parts, rowCount := total }

/-- Put objects one after the other. -/
def putAll : List (String × List Line) → Staging Line Unit
  | [] => return ()
  | (key, body) :: objects => do
      putObject key body
      putAll objects

/-- Bodies under consecutive part keys. -/
def partObjects (keyPrefix : String) (before : Nat) : List (List Line) → List (String × List Line)
  | [] => []
  | body :: bodies =>
      (partKey keyPrefix (before + 1), body) :: partObjects keyPrefix (before + 1) bodies

/-- The bodies of a run; an empty extract has one empty part. -/
def stagedBodies (records : List Line) (chunkRows : Int) : List (List Line) :=
  if (chunksFrom chunkRows.toNat [] records).isEmpty then [[]]
  else chunksFrom chunkRows.toNat [] records

/-- Everything a run puts, in order. -/
def stagedObjects (keyPrefix : String) (records : List Line) (chunkRows : Int) :
    List (String × List Line) :=
  partObjects keyPrefix 0 (stagedBodies records chunkRows)

/-- A bucket after some puts. -/
def store (bucket : Bucket Line) (objects : List (String × List Line)) : Bucket Line :=
  objects.foldl (fun bucket o => bucket.insert o.1 o.2) bucket

variable {keyPrefix key : String} {records lines body : List Line} {chunkRows : Int}
variable {objects : List (String × List Line)} {bucket : Bucket Line} {s3 : S3 Line}

/-- Chunking loses nothing and keeps the order. -/
theorem flatten_chunksFrom (n : Nat) (lines records : List Line) :
    (chunksFrom n lines records).flatten = lines ++ records := by
  induction records generalizing lines with
  | nil => cases lines <;> simp [chunksFrom]
  | cons record records ih =>
      rw [chunksFrom]
      split
      · rw [List.flatten_cons, ih, List.nil_append, List.append_assoc, List.singleton_append]
      · rw [ih, List.append_assoc, List.singleton_append]

/-- A chunk has rows, and no more than it may have -/
theorem length_of_mem_chunksFrom {n : Nat} (room : lines.length < n)
    (h : body ∈ chunksFrom n lines records) : 1 ≤ body.length ∧ body.length ≤ n := by
  induction records generalizing lines with
  | nil =>
      cases lines with
      | nil => cases h
      | cons line lines =>
          rw [List.mem_singleton.mp h]
          exact ⟨Nat.le_add_left 1 _, Nat.le_of_lt room⟩
  | cons record records ih =>
      have grown : (lines ++ [record]).length = lines.length + 1 := by simp
      rw [chunksFrom] at h
      split at h
      · rcases List.mem_cons.mp h with rfl | h
        · omega
        · exact ih (Nat.lt_of_le_of_lt (Nat.zero_le _) room) h
      · exact ih (by omega) h

/-- and all of them, but the last chunk. -/
theorem length_of_mem_dropLast_chunksFrom {n : Nat} (room : lines.length < n)
    (h : body ∈ (chunksFrom n lines records).dropLast) : body.length = n := by
  induction records generalizing lines with
  | nil => cases lines <;> cases h
  | cons record records ih =>
      have grown : (lines ++ [record]).length = lines.length + 1 := by simp
      rw [chunksFrom] at h
      split at h
      · by_cases last : chunksFrom n [] records = []
        · rw [last] at h
          cases h
        · rw [List.dropLast_cons_of_ne_nil last] at h
          rcases List.mem_cons.mp h with rfl | h
          · omega
          · exact ih (Nat.lt_of_le_of_lt (Nat.zero_le _) room) h
      · exact ih (by omega) h

/-- So that their number is known. -/
theorem length_chunksFrom {n : Nat} (room : lines.length < n) (records : List Line) :
    (chunksFrom n lines records).length = (lines.length + records.length) ⌈/⌉ n := by
  have positive : 0 < n := Nat.lt_of_le_of_lt (Nat.zero_le _) room
  induction records generalizing lines with
  | nil =>
      rw [Nat.ceilDiv_eq_add_pred_div]
      cases lines with
      | nil => simp [chunksFrom, Nat.div_eq_of_lt (Nat.sub_lt positive Nat.one_pos)]
      | cons line lines =>
          rw [List.length_cons] at room
          have split : (line :: lines).length + ([] : List Line).length + n - 1 =
              n + lines.length := by
            simp only [List.length_cons, List.length_nil]
            omega
          rw [split, Nat.add_div_left _ positive, Nat.div_eq_of_lt (by omega)]
          rfl
  | cons record records ih =>
      have grown : (lines ++ [record]).length = lines.length + 1 := by simp
      rw [chunksFrom]
      split
      · have full : lines.length + (record :: records).length + n - 1 =
            n + (0 + records.length + n - 1) := by
          rw [List.length_cons]
          omega
        have rest : (chunksFrom n [] records).length = (0 + records.length) ⌈/⌉ n := ih positive
        rw [List.length_cons, rest, Nat.ceilDiv_eq_add_pred_div, Nat.ceilDiv_eq_add_pred_div, full,
          Nat.add_div_left _ positive]
      · rw [ih (by omega), grown, List.length_cons, Nat.add_assoc, Nat.add_comm 1]

theorem flatten_stagedBodies (records : List Line) (chunkRows : Int) :
    (stagedBodies records chunkRows).flatten = records := by
  have whole := flatten_chunksFrom chunkRows.toNat [] records
  unfold stagedBodies
  cases hchunks : chunksFrom chunkRows.toNat [] records with
  | nil => simpa [hchunks] using whole
  | cons body bodies => simpa [hchunks] using whole

theorem partKey_toList (keyPrefix : String) (i : Nat) : (partKey keyPrefix i).toList =
    keyPrefix.toList ++ ("part-".toList ++ (Text.zeroPadded 5 i ++ ".jsonl".toList)) := by
  simp [partKey]

theorem partKey_injective (keyPrefix : String) : Function.Injective (partKey keyPrefix) := by
  intro i j h
  have hlist := congrArg String.toList h
  rw [partKey_toList, partKey_toList, List.append_cancel_left_eq, List.append_cancel_left_eq,
    List.append_cancel_right_eq] at hlist
  exact Text.zeroPadded_injective 5 hlist

/-- A part key lies under its prefix. -/
theorem prefix_partKey (keyPrefix : String) (i : Nat) :
    keyPrefix.toList <+: (partKey keyPrefix i).toList := by
  rw [partKey_toList]
  exact List.prefix_append _ _

theorem mem_keys_partObjects {before : Nat} {bodies : List (List Line)} :
    key ∈ (partObjects keyPrefix before bodies).map Prod.fst ↔
      ∃ i, before < i ∧ i ≤ before + bodies.length ∧ key = partKey keyPrefix i := by
  induction bodies generalizing before with
  | nil =>
      simp only [partObjects, List.map_nil, List.not_mem_nil, List.length_nil, false_iff]
      rintro ⟨i, hlt, hle, _⟩
      omega
  | cons body bodies ih =>
      rw [partObjects, List.map_cons, List.mem_cons, ih, List.length_cons]
      constructor
      · rintro (rfl | ⟨i, hlt, hle, rfl⟩)
        · exact ⟨before + 1, by omega, by omega, rfl⟩
        · exact ⟨i, by omega, by omega, rfl⟩
      · rintro ⟨i, hlt, hle, rfl⟩
        by_cases hfirst : i = before + 1
        · exact .inl (by rw [hfirst])
        · exact .inr ⟨i, by omega, by omega, rfl⟩

theorem nodup_keys_partObjects (keyPrefix : String) (before : Nat) (bodies : List (List Line)) :
    ((partObjects keyPrefix before bodies).map Prod.fst).Nodup := by
  induction bodies generalizing before with
  | nil => exact List.nodup_nil
  | cons body bodies ih =>
      rw [partObjects, List.map_cons, List.nodup_cons]
      refine ⟨fun hmem => ?_, ih (before + 1)⟩
      obtain ⟨i, hlt, _, hkey⟩ := mem_keys_partObjects.mp hmem
      have := partKey_injective keyPrefix hkey
      omega

theorem map_snd_partObjects (keyPrefix : String) (before : Nat) (bodies : List (List Line)) :
    (partObjects keyPrefix before bodies).map Prod.snd = bodies := by
  induction bodies generalizing before with
  | nil => rfl
  | cons body bodies ih => rw [partObjects, List.map_cons, ih]

theorem mem_store : key ∈ store bucket objects ↔ key ∈ bucket ∨ key ∈ objects.map Prod.fst := by
  induction objects generalizing bucket with
  | nil => simp [store]
  | cons o objects ih =>
      rw [store, List.foldl_cons]
      refine ih.trans ?_
      rw [AList.mem_insert, List.map_cons, List.mem_cons]
      tauto

theorem lookup_store_of_not_mem (h : key ∉ objects.map Prod.fst) :
    (store bucket objects).lookup key = bucket.lookup key := by
  induction objects generalizing bucket with
  | nil => rfl
  | cons o objects ih =>
      rw [List.map_cons, List.mem_cons, not_or] at h
      rw [store, List.foldl_cons]
      exact (ih h.2).trans (AList.lookup_insert_ne h.1)

theorem lookup_store_of_mem (nodup : (objects.map Prod.fst).Nodup) (h : (key, body) ∈ objects) :
    (store bucket objects).lookup key = some body := by
  induction objects generalizing bucket with
  | nil => cases h
  | cons o objects ih =>
      obtain ⟨fresh, rest⟩ := List.nodup_cons.mp nodup
      rw [store, List.foldl_cons]
      rcases List.mem_cons.mp h with rfl | h
      · exact (lookup_store_of_not_mem fresh).trans (AList.lookup_insert _)
      · exact ih rest h

/-- Stored objects read back in order. -/
theorem flatMap_lookup_store (nodup : (objects.map Prod.fst).Nodup) :
    (objects.map Prod.fst).flatMap (fun key => ((store bucket objects).lookup key).getD []) =
      (objects.map Prod.snd).flatten := by
  rw [List.flatMap_map, ← List.flatMap_id, List.flatMap_map]
  refine List.flatMap_congr fun o ho => ?_
  rw [lookup_store_of_mem nodup (show (o.1, o.2) ∈ objects from ho)]
  rfl

theorem run_staging_bind {α β : Type} {first : Staging Line α} {rest : α → Staging Line β} :
    (first >>= rest).run s3 =
      match first.run s3 with
      | .ok a s3 => (rest a).run s3
      | .error e s3 => .error e s3 := by
  simp only [bind, EStateM.bind, EStateM.run]
  cases first s3 <;> rfl

private theorem putObject_run (key : String) (body : List Line) (s3 : S3 Line) :
    (putObject key body).run s3 =
      match s3.patience with
      | none => .ok () { s3 with objects := s3.objects.insert key body }
      | some 0 => .error .interrupted s3
      | some (n + 1) => .ok () { objects := s3.objects.insert key body, patience := some n } := by
  simp only [putObject, EStateM.run, bind, EStateM.bind, get, getThe, MonadStateOf.get, EStateM.get]
  rcases s3.patience with _ | _ | n <;> rfl

/-- With enough patience every object is stored. -/
theorem putAll_run_ok (enough : ∀ p, s3.patience = some p → objects.length ≤ p) :
    (putAll objects).run s3 = .ok ()
      { objects := store s3.objects objects
        patience := s3.patience.map fun p => p - objects.length } := by
  induction objects generalizing s3 with
  | nil =>
      obtain ⟨bucket, patience⟩ := s3
      cases patience <;> rfl
  | cons o objects ih =>
      obtain ⟨bucket, patience⟩ := s3
      rw [putAll, run_staging_bind, putObject_run]
      match patience with
      | none => exact ih (by simp)
      | some 0 => exact absurd (enough 0 rfl) (by simp)
      | some (n + 1) =>
          have hlen := enough (n + 1) rfl
          rw [List.length_cons] at hlen
          refine (ih fun p hp => ?_).trans ?_
          · rw [← Option.some.inj hp]
            omega
          · simp [store]

/-- An exception leaves the objects put before it. -/
theorem putAll_run_interrupted {p : Nat} (hp : s3.patience = some p)
    (short : p < objects.length) :
    (putAll objects).run s3 = .error .interrupted
      { objects := store s3.objects (objects.take p), patience := some 0 } := by
  induction objects generalizing s3 p with
  | nil => cases short
  | cons o objects ih =>
      obtain ⟨bucket, patience⟩ := s3
      subst hp
      rw [putAll, run_staging_bind, putObject_run]
      cases p with
      | zero => rfl
      | succ p => exact ih rfl (Nat.lt_of_succ_lt_succ short)

/-- The loop as one sequence of puts. -/
theorem putParts_eq (keyPrefix : String) (chunks : List (List Line × Nat)) (parts : List String)
    (total : Nat) :
    putParts keyPrefix chunks parts total = do
      putAll (partObjects keyPrefix parts.length (chunks.map Prod.fst))
      return (parts ++ (partObjects keyPrefix parts.length (chunks.map Prod.fst)).map Prod.fst,
        total + (chunks.map Prod.snd).sum) := by
  induction chunks generalizing parts total with
  | nil => simp [putParts, putAll, partObjects]
  | cons chunk chunks ih =>
      rw [putParts, ih, List.map_cons, partObjects, putAll, List.length_append,
        List.length_singleton]
      simp [List.append_assoc, Nat.add_assoc]

/-- The function as one sequence of puts. -/
theorem stageDataset_eq {dataset runId id pre : String} {runDate : Date}
    (hid : sanitizeRunId runId = .ok id) (hrows : 1 ≤ chunkRows) (records : List Line) :
    stageDataset dataset records runId runDate pre chunkRows =
      let keyPrefix := partitionPrefix pre dataset runDate ++ "run=" ++ id ++ "/"
      do
        putAll (stagedObjects keyPrefix records chunkRows)
        return { dataset := dataset, runId := id, runDate := runDate, keyPrefix := keyPrefix,
                 parts := (stagedObjects keyPrefix records chunkRows).map Prod.fst,
                 rowCount := records.length } := by
  have hprefix : snapshotPrefix dataset runDate runId pre =
      .ok (partitionPrefix pre dataset runDate ++ "run=" ++ id ++ "/") := by
    rw [snapshotPrefix, hid]
    rfl
  have hchunks : iterJsonlChunks records chunkRows =
      .ok ((chunksFrom chunkRows.toNat [] records).map fun lines => (lines, lines.length)) :=
    if_neg (Int.not_lt.mpr hrows)
  have whole := congrArg List.length (flatten_chunksFrom chunkRows.toNat [] records)
  rw [List.nil_append, List.length_flatten] at whole
  simp only [stageDataset, hprefix, hchunks, hid, orRaise, pure_bind, putParts_eq, bind_assoc,
    List.length_nil, List.nil_append, Nat.zero_add, List.map_map, Function.comp_def, List.map_id',
    whole]
  unfold stagedObjects stagedBodies
  cases hempty : chunksFrom chunkRows.toNat [] records with
  | nil => simp [partObjects, putAll]
  | cons body bodies => simp [partObjects, putAll]

end PaymentsPlatform.Snowflake
