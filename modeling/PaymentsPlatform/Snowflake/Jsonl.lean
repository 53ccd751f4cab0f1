import PaymentsPlatform.Json.Bytes
import PaymentsPlatform.Json.RoundTrip
import PaymentsPlatform.Snowflake.Staging
import PaymentsPlatform.Text.Lines
import PaymentsPlatform.Text.Scientific

/-!
# The bytes of a part

`snowflake_etl/src/stage_to_s3.py` down to what it puts: records of Python values, the
line `json.dumps` prints of each, and bodies in UTF-8. `iterJsonlChunks` and `stageDataset`
are the functions of the source on records and bytes; the ones of `Staging` are about the
lines alone, which is how many there are and where they go.

The lines of the bodies are read back as the records, with a decimal as its text and a
date as its ISO text (`staging_lossless`), when no integer is too long to print. A string
in which a high surrogate stands directly in front of a low one comes back as the code
point that the pair encodes.
-/

namespace PaymentsPlatform.Snowflake.Jsonl

open CodePoint (ofChar)

/-- A value of a record. -/
inductive Field where
  | none
  | bool (b : Bool)
  | int (n : Int)
  | float (x : PyFloat)
  | str (s : PyStr)
  | decimal (d : PyDecimal)
  | date (d : Date)
  | datetime (t : DateTime)
  | other (typeName : String)

/-- A `dict` with strings for keys. -/
abbrev Record := OrderedDict PyStr Field

/-- The `TypeError` of `_json_default`, and the `ValueError` of an integer that is too long. -/
inductive DumpError where
  | typeError (message : String)
  | tooLong
  deriving DecidableEq, Repr

/-- The type that the error of a field names. -/
def Field.typeName : Field → String
  | .none => "NoneType"
  | .bool _ => "bool"
  | .int _ => "int"
  | .float _ => "float"
  | .str _ => "str"
  | .decimal _ => "Decimal"
  | .date _ => "date"
  | .datetime _ => "datetime"
  | .other typeName => typeName

/-- `_json_default`: serialize the types that JSON does not have. -/
def jsonDefault : Field → Except DumpError PyStr
  | .decimal d => .ok (pyStr (String.ofList d.str))
  | .datetime t => .ok (pyStr t.isoformat)
  | .date d => .ok (pyStr d.isoformat)
  | field => .error (.typeError ("Cannot serialize value of type " ++ field.typeName))

/-- What `json.dumps` makes of a value, with the help of `_json_default`. -/
def Field.json : Field → Except DumpError Json
  | .none => .ok .null
  | .bool b => .ok (.bool b)
  | .int n =>
      if Json.maxDigits < (Nat.toDigits 10 n.natAbs).length then .error .tooLong
      else .ok (.int n)
  | .float x => .ok (.float x)
  | .str s => .ok (.string s)
  | field => do
      let text ← jsonDefault field
      return .string text

def membersJson : List (PyStr × Field) → Except DumpError (List (PyStr × Json))
  | [] => .ok []
  | (key, field) :: fields => do
      let value ← field.json
      let members ← membersJson fields
      return (key, value) :: members

/-- The line of a record. -/
def jsonLine (record : Record) : Except DumpError (List Char) := do
  let members ← membersJson record.entries
  return Json.dumps .default (.object members)

/-- The content of a part. -/
def body (lines : List (List Char)) : List UInt8 := Json.encodeUtf8 (Text.joinLines '\n' lines)

/-- A part with its row count. -/
def part (lines : List (List Char)) : List UInt8 × Nat := (body lines, lines.length)

/-- What a generator yields, and what it raises then. -/
structure Yielded where
  chunks : List (List UInt8 × Nat)
  raised : Option DumpError

/-- The loop of `iter_jsonl_chunks`, with the lines it has collected. -/
def jsonlChunksFrom (chunkRows : Nat) (lines : List (List Char)) : List Record → Yielded
  | [] => { chunks := if lines.isEmpty then [] else [part lines], raised := none }
  | record :: records =>
      match jsonLine record with
      | .error e => { chunks := [], raised := some e }
      | .ok line =>
          if chunkRows ≤ (lines ++ [line]).length then
            let rest := jsonlChunksFrom chunkRows [] records
            { rest with chunks := part (lines ++ [line]) :: rest.chunks }
          else jsonlChunksFrom chunkRows (lines ++ [line]) records

/-- The parts that are yielded, up to an exception. -/
def iterJsonlChunks (records : List Record) (chunkRows : Int) : Except StagingError Yielded :=
  if chunkRows < 1 then .error .chunkRows
  else .ok (jsonlChunksFrom chunkRows.toNat [] records)

/-- The end of the loop over the parts, where the exception of the generator goes on. -/
def Yielded.finish (yielded : Yielded) : Except StagingError Unit :=
  if yielded.raised.isSome then .error .interrupted else .ok ()

/-- Staging, where the parts are yielded one after the other while they are put. -/
def stageDataset (dataset : String) (records : List Record) (runId : String) (runDate : Date)
    (pre : String) (chunkRows : Int) : Staging UInt8 StagedSnapshot := do
  let keyPrefix ← orRaise (snapshotPrefix dataset runDate runId pre)
  let yielded ← orRaise (iterJsonlChunks records chunkRows)
  let (parts, total) ← putParts keyPrefix yielded.chunks [] 0
  orRaise yielded.finish
  let parts ← if parts.isEmpty then do
      putObject (partKey keyPrefix 1) []
      pure [partKey keyPrefix 1]
    else pure parts
  let runId ← orRaise (sanitizeRunId runId)
  return { dataset := dataset, runId := runId, runDate := runDate, keyPrefix := keyPrefix,
           parts := parts, rowCount := total }

/-- The values of JSON that stand for the values of a record. -/
inductive Field.Staged : Field → Json → Prop
  | none : Field.Staged .none .null
  | bool (b : Bool) : Field.Staged (.bool b) (.bool b)
  | int (n : Int) : Field.Staged (.int n) (.int n)
  | str (s : PyStr) : Field.Staged (.str s) (.string s)
  | decimal (d : PyDecimal) : Field.Staged (.decimal d) (.string (pyStr (String.ofList d.str)))
  | date (d : Date) : Field.Staged (.date d) (.string (pyStr d.isoformat))
  | datetime (t : DateTime) : Field.Staged (.datetime t) (.string (pyStr t.isoformat))

/-- The same keys in the same order, with the values that stand for the others. -/
abbrev StagedMembers : List (PyStr × Field) → List (PyStr × Json) → Prop :=
  List.Forall₂ fun entry member => entry.1 = member.1 ∧ entry.2.Staged member.2

/-- The object that stands for a record. -/
def Staged (record : Record) (v : Json) : Prop :=
  ∃ members, v = .object members ∧ StagedMembers record.entries members

/-- `None`, a boolean, an integer, a string, a `Decimal`, a date or a timestamp. -/
def Field.Listed : Field → Prop
  | .float _ | .other _ => False
  | _ => True

/-- Integers that are printed. -/
def Field.Short : Field → Prop
  | .int n => (Nat.toDigits 10 n.natAbs).length ≤ Json.maxDigits
  | _ => True

/-- Strings that are read back. -/
def Field.Unjoined : Field → Prop
  | .str s => Json.Unjoined s
  | _ => True

instance Field.Listed.decidable : (field : Field) → Decidable field.Listed
  | .float _ | .other _ => .isFalse id
  | .none | .bool _ | .int _ | .str _ | .decimal _ | .date _ | .datetime _ => .isTrue trivial

instance Field.Short.decidable : (field : Field) → Decidable field.Short
  | .int n => Nat.decLe (Nat.toDigits 10 n.natAbs).length Json.maxDigits
  | .none | .bool _ | .float _ | .str _ | .decimal _ | .date _ | .datetime _ | .other _ =>
      .isTrue trivial

def Listed (record : Record) : Prop := ∀ entry ∈ record.entries, entry.2.Listed

def Short (record : Record) : Prop := ∀ entry ∈ record.entries, entry.2.Short

instance Listed.decidable (record : Record) : Decidable (Listed record) :=
  inferInstanceAs (Decidable (∀ entry ∈ record.entries, entry.2.Listed))

instance Short.decidable (record : Record) : Decidable (Short record) :=
  inferInstanceAs (Decidable (∀ entry ∈ record.entries, entry.2.Short))

/-- No key and no string has a high surrogate directly in front of a low one. -/
def Unjoined (record : Record) : Prop :=
  ∀ entry ∈ record.entries, Json.Unjoined entry.1 ∧ entry.2.Unjoined

/-- The lines of a body, split at the newlines. -/
def bodyLines (body : List UInt8) : List (List UInt8) := Text.splitLines 0x0A body

/-- A line is decoded to what stands for the record. -/
def ReadsBack (float : List Char → PyFloat) (record : Record) (line : List UInt8) : Prop :=
  ∃ v, Json.loadsBytes float line = .ok v ∧ Staged record v

/-- Parts of `n` rows, but the last, each with its lines counted. -/
structure Chunked (n : Nat) (chunks : List (List UInt8 × Nat)) : Prop where
  nonempty : ∀ chunk ∈ chunks, chunk.1 ≠ []
  full : ∀ chunk ∈ chunks.dropLast, chunk.2 = n
  last : ∀ chunk ∈ chunks.getLast?, chunk.2 ≤ n
  counted : ∀ chunk ∈ chunks, (bodyLines chunk.1).length = chunk.2

/-- The parts of a run, with what each adds to the row total; an empty extract has one
empty part. -/
def uploads (chunks : List (List UInt8 × Nat)) : List (List UInt8 × Nat) :=
  if chunks.isEmpty then [([], 0)] else chunks

/-- The bodies are stored in order below the prefix of the run, and nothing else changes. -/
structure Uploaded (bucket bucket' : Bucket UInt8) (staged : StagedSnapshot)
    (bodies : List (List UInt8)) : Prop where
  distinct : staged.parts.Nodup
  below : ∀ key ∈ staged.parts, staged.keyPrefix.toList <+: key.toList
  stored : staged.parts.map bucket'.lookup = bodies.map some
  only : ∀ key ∈ bucket', staged.keyPrefix.toList <+: key.toList → key ∈ staged.parts
  others : ∀ key ∉ staged.parts, bucket'.lookup key = bucket.lookup key

/-- The lines that S3 has of each part. -/
def storedLines (bucket : Bucket UInt8) (staged : StagedSnapshot) : List Nat :=
  staged.parts.map fun key => (bodyLines ((bucket.lookup key).getD [])).length

/-- The counts of a run of `n` records; a part has the lines that it adds to the row total. -/
structure Counted (n chunkRows : Nat) (bucket : Bucket UInt8) (staged : StagedSnapshot)
    (chunks : List (List UInt8 × Nat)) : Prop where
  rowCount : staged.rowCount = n
  partCount : staged.partCount = max 1 (n ⌈/⌉ chunkRows)
  lines : storedLines bucket staged = (uploads chunks).map Prod.snd
  total : ((uploads chunks).map Prod.snd).sum = staged.rowCount

variable {record : Record} {records : List Record} {field : Field} {v : Json}
variable {line : Record → List Char} {lines : List (List Char)} {chunkRows : Int}

theorem Field.exists_staged (listed : field.Listed) : ∃ v, field.Staged v := by
  cases field with
  | none => exact ⟨_, .none⟩
  | bool b => exact ⟨_, .bool b⟩
  | int n => exact ⟨_, .int n⟩
  | float x => exact listed.elim
  | str s => exact ⟨_, .str s⟩
  | decimal d => exact ⟨_, .decimal d⟩
  | date d => exact ⟨_, .date d⟩
  | datetime t => exact ⟨_, .datetime t⟩
  | other typeName => exact listed.elim

theorem Field.json_of_staged (staged : field.Staged v) (short : field.Short) :
    field.json = .ok v := by
  cases staged with
  | int n => exact if_neg (Nat.not_lt.mpr short)
  | none => rfl
  | bool b => rfl
  | str s => rfl
  | decimal d => rfl
  | date d => rfl
  | datetime t => rfl

theorem Field.readable_of_staged (staged : field.Staged v) (short : field.Short)
    (unjoined : field.Unjoined) : Json.Readable v := by
  cases staged with
  | none => exact .null
  | bool b => exact .bool b
  | int n => exact .int n short
  | str s => exact .string s unjoined
  | decimal d => exact .string _ (Json.scalar_pyStr _).unjoined
  | date d => exact .string _ (Json.scalar_pyStr _).unjoined
  | datetime t => exact .string _ (Json.scalar_pyStr _).unjoined

section Members

variable {entries : List (PyStr × Field)} {members : List (PyStr × Json)}

theorem exists_members (listed : ∀ entry ∈ entries, entry.2.Listed) :
    ∃ members, StagedMembers entries members := by
  induction entries with
  | nil => exact ⟨[], .nil⟩
  | cons entry entries ih =>
      obtain ⟨hentry, listed⟩ := List.forall_mem_cons.mp listed
      obtain ⟨v, staged⟩ := Field.exists_staged hentry
      obtain ⟨members, rest⟩ := ih listed
      exact ⟨(entry.1, v) :: members, .cons ⟨rfl, staged⟩ rest⟩

theorem membersJson_of_staged (staged : StagedMembers entries members)
    (short : ∀ entry ∈ entries, entry.2.Short) : membersJson entries = .ok members := by
  induction staged with
  | nil => rfl
  | @cons entry member entries members first rest ih =>
      obtain ⟨key, field⟩ := entry
      obtain ⟨_, value⟩ := member
      obtain ⟨rfl, hvalue⟩ := first
      obtain ⟨hentry, short⟩ := List.forall_mem_cons.mp short
      rw [membersJson, Field.json_of_staged hvalue hentry, ih short]
      rfl

theorem keys_of_staged (staged : StagedMembers entries members) :
    entries.map Prod.fst = members.map Prod.fst := by
  induction staged with
  | nil => rfl
  | cons first rest ih => rw [List.map_cons, List.map_cons, first.1, ih]

theorem readable_members (staged : StagedMembers entries members)
    (short : ∀ entry ∈ entries, entry.2.Short)
    (unjoined : ∀ entry ∈ entries, Json.Unjoined entry.1 ∧ entry.2.Unjoined) :
    ∀ member ∈ members, Json.Unjoined member.1 ∧ Json.Readable member.2 := by
  induction staged with
  | nil => exact fun _ h => absurd h List.not_mem_nil
  | cons first rest ih =>
      obtain ⟨hshort, short⟩ := List.forall_mem_cons.mp short
      obtain ⟨hunjoined, unjoined⟩ := List.forall_mem_cons.mp unjoined
      refine List.forall_mem_cons.mpr ⟨⟨first.1 ▸ hunjoined.1, ?_⟩, ih short unjoined⟩
      exact Field.readable_of_staged first.2 hshort hunjoined.2

end Members

/-- The line of a record, and what it is read back as. -/
theorem exists_line (float : List Char → PyFloat) (listed : Listed record)
    (short : Short record) : ∃ text, jsonLine record = .ok text ∧
      (∀ c ∈ text, Json.Printable c) ∧
      (Unjoined record → ReadsBack float record (Json.encodeUtf8 text)) := by
  obtain ⟨members, staged⟩ := exists_members listed
  have printable : ∀ c ∈ Json.dumps .default (.object members), Json.Printable c :=
    fun c hc => Json.printable_default _ hc
  refine ⟨Json.dumps .default (.object members), ?_, printable, fun unjoined => ?_⟩
  · rw [jsonLine, membersJson_of_staged staged short]
    rfl
  · have readable := readable_members staged short unjoined
    refine ⟨.object members, ?_, members, rfl, staged⟩
    rw [Json.loadsBytes_encode float printable, Json.loads_dumps float Json.spaced_default
      (.object members (keys_of_staged staged ▸ record.nodup) (fun m hm => (readable m hm).1)
        fun m hm => (readable m hm).2)]

/-- The lines of a body are those it was made of. -/
theorem bodyLines_body (nonempty : lines ≠ [])
    (printable : ∀ text ∈ lines, ∀ c ∈ text, Json.Printable c) :
    bodyLines (body lines) = lines.map Json.encodeUtf8 := by
  have small : ∀ text ∈ lines, ∀ c ∈ text, c.toNat < 128 := fun text htext c hc =>
    Nat.lt_trans (printable text htext c hc).2 (by decide)
  have ascii : ∀ c ∈ Text.joinLines '\n' lines, c.toNat < 128 := by
    intro c hc
    rcases Text.mem_joinLines hc with rfl | ⟨text, htext, hc⟩
    · decide
    · exact small text htext c hc
  have encoded : lines.map (List.map Json.asciiByte) = lines.map Json.encodeUtf8 :=
    List.map_congr_left fun text htext => (Json.encodeUtf8_of_ascii (small text htext)).symm
  have clean : ∀ bytes ∈ lines.map (List.map Json.asciiByte), (0x0A : UInt8) ∉ bytes := by
    intro bytes hbytes hmem
    obtain ⟨text, htext, rfl⟩ := List.mem_map.mp hbytes
    obtain ⟨c, hc, hbyte⟩ := List.mem_map.mp hmem
    have value := Json.toNat_asciiByte (small text htext c hc)
    rw [hbyte] at value
    have := (printable text htext c hc).1
    simp at value
    omega
  rw [bodyLines, body, Json.encodeUtf8_of_ascii ascii, Text.map_joinLines _ _ nonempty,
    show Json.asciiByte '\n' = 0x0A from rfl,
    Text.splitLines_joinLines (mt List.map_eq_nil_iff.mp nonempty) clean, encoded]

/-- When every record has its line, the parts are the chunks of the lines. -/
theorem jsonlChunksFrom_eq {n : Nat}
    (hline : ∀ record ∈ records, jsonLine record = .ok (line record))
    (before : List (List Char)) : jsonlChunksFrom n before records =
      { chunks := (chunksFrom n before (records.map line)).map part, raised := none } := by
  induction records generalizing before with
  | nil => cases before <;> rfl
  | cons record records ih =>
      obtain ⟨hrecord, hline⟩ := List.forall_mem_cons.mp hline
      rw [jsonlChunksFrom, hrecord, List.map_cons, chunksFrom]
      simp only [ih hline]
      split
      · rfl
      · rfl

section Chunks

variable {n : Nat} {chunk : List (List Char)}

/-- The lines of a chunk are some of all lines. -/
theorem printable_chunk (printable : ∀ text ∈ lines, ∀ c ∈ text, Json.Printable c)
    (h : chunk ∈ chunksFrom n [] lines) : ∀ text ∈ chunk, ∀ c ∈ text, Json.Printable c := by
  intro text htext
  have whole := flatten_chunksFrom n [] lines
  rw [List.nil_append] at whole
  exact printable text (whole ▸ List.mem_flatten.mpr ⟨chunk, h, htext⟩)

theorem length_of_mem_chunk (positive : 0 < n) (h : chunk ∈ chunksFrom n [] lines) :
    1 ≤ chunk.length ∧ chunk.length ≤ n := by
  have room : ([] : List (List Char)).length < n := positive
  exact length_of_mem_chunksFrom room h

theorem bodyLines_chunk (positive : 0 < n)
    (printable : ∀ text ∈ lines, ∀ c ∈ text, Json.Printable c)
    (h : chunk ∈ chunksFrom n [] lines) : bodyLines (body chunk) = chunk.map Json.encodeUtf8 := by
  have rows : 1 ≤ chunk.length := (length_of_mem_chunk positive h).1
  exact bodyLines_body (List.length_pos_iff.mp rows) (printable_chunk printable h)

theorem chunked_parts (positive : 0 < n)
    (printable : ∀ text ∈ lines, ∀ c ∈ text, Json.Printable c) :
    Chunked n ((chunksFrom n [] lines).map part) where
  nonempty := by
    intro _ hpart
    obtain ⟨chunk, hchunk, rfl⟩ := List.mem_map.mp hpart
    have rows : 1 ≤ chunk.length := (length_of_mem_chunk positive hchunk).1
    have split := congrArg List.length (bodyLines_chunk positive printable hchunk)
    rw [List.length_map] at split
    intro (empty : body chunk = [])
    rw [empty, bodyLines, Text.splitLines_nil, List.length_nil] at split
    omega
  full := by
    intro _ hpart
    rw [← List.map_dropLast] at hpart
    obtain ⟨chunk, hchunk, rfl⟩ := List.mem_map.mp hpart
    have room : ([] : List (List Char)).length < n := positive
    exact length_of_mem_dropLast_chunksFrom room hchunk
  last := by
    intro _ hpart
    obtain ⟨chunk, hchunk, rfl⟩ := List.mem_map.mp (List.mem_of_getLast? hpart)
    exact (length_of_mem_chunk positive hchunk).2
  counted := by
    intro _ hpart
    obtain ⟨chunk, hchunk, rfl⟩ := List.mem_map.mp hpart
    show (bodyLines (body chunk)).length = chunk.length
    rw [bodyLines_chunk positive printable hchunk, List.length_map]

/-- The lines of all bodies, in order. -/
theorem flatMap_bodyLines (positive : 0 < n)
    (printable : ∀ text ∈ lines, ∀ c ∈ text, Json.Printable c) :
    ((chunksFrom n [] lines).map part).flatMap (fun chunk => bodyLines chunk.1) =
      lines.map Json.encodeUtf8 := by
  have whole := flatten_chunksFrom n [] lines
  rw [List.nil_append] at whole
  calc ((chunksFrom n [] lines).map part).flatMap (fun chunk => bodyLines chunk.1)
      = (chunksFrom n [] lines).flatMap fun chunk => bodyLines (body chunk) := List.flatMap_map ..
    _ = (chunksFrom n [] lines).flatMap (List.map Json.encodeUtf8) :=
        List.flatMap_congr fun _ h => bodyLines_chunk positive printable h
    _ = lines.map Json.encodeUtf8 := by rw [List.flatMap_def, ← List.map_flatten, whole]

theorem sum_rows_parts (n : Nat) (lines : List (List Char)) :
    (((chunksFrom n [] lines).map part).map Prod.snd).sum = lines.length := by
  have whole := congrArg List.length (flatten_chunksFrom n [] lines)
  rw [List.nil_append, List.length_flatten] at whole
  rw [List.map_map]
  exact whole

end Chunks

section Stage

variable {dataset runId pre keyPrefix : String} {runDate : Date}
variable {chunks : List (List UInt8 × Nat)} {bucket : Bucket UInt8}

/-- The prefix of a run, taken apart. -/
theorem snapshotPrefix_eq (h : snapshotPrefix dataset runDate runId pre = .ok keyPrefix) :
    ∃ id, sanitizeRunId runId = .ok id ∧
      keyPrefix = partitionPrefix pre dataset runDate ++ "run=" ++ id ++ "/" := by
  unfold snapshotPrefix at h
  cases hid : sanitizeRunId runId with
  | error e =>
      rw [hid] at h
      cases h
  | ok id =>
      rw [hid] at h
      exact ⟨id, rfl, (Except.ok.inj h).symm⟩

/-- A run puts its parts in order. -/
theorem stageDataset_run (hbelow : snapshotPrefix dataset runDate runId pre = .ok keyPrefix)
    (hchunks : iterJsonlChunks records chunkRows = .ok { chunks := chunks, raised := none })
    (bucket : Bucket UInt8) : ∃ id,
      (stageDataset dataset records runId runDate pre chunkRows).run
        { objects := bucket, patience := none } = .ok
          { dataset := dataset, runId := id, runDate := runDate, keyPrefix := keyPrefix,
            parts := (partObjects keyPrefix 0 ((uploads chunks).map Prod.fst)).map Prod.fst,
            rowCount := (chunks.map Prod.snd).sum }
          { objects := store bucket (partObjects keyPrefix 0 ((uploads chunks).map Prod.fst)),
            patience := none } := by
  obtain ⟨id, hid, _⟩ := snapshotPrefix_eq hbelow
  refine ⟨id, ?_⟩
  have puts : stageDataset dataset records runId runDate pre chunkRows = do
      putAll (partObjects keyPrefix 0 ((uploads chunks).map Prod.fst))
      return { dataset := dataset, runId := id, runDate := runDate, keyPrefix := keyPrefix,
               parts := (partObjects keyPrefix 0 ((uploads chunks).map Prod.fst)).map Prod.fst,
               rowCount := (chunks.map Prod.snd).sum } := by
    simp only [stageDataset, hbelow, hchunks, hid, orRaise, Yielded.finish, pure_bind, putParts_eq,
      bind_assoc, List.length_nil, List.nil_append, Nat.zero_add, Option.isSome_none,
      Bool.false_eq_true, if_false]
    unfold uploads
    cases chunks with
    | nil => simp [partObjects, putAll]
    | cons chunk chunks => simp [partObjects, putAll]
  rw [puts, run_staging_bind, putAll_run_ok (by simp)]
  rfl

theorem uploaded_store {staged : StagedSnapshot} (bodies : List (List UInt8))
    (hkey : staged.keyPrefix = keyPrefix)
    (hparts : staged.parts = (partObjects keyPrefix 0 bodies).map Prod.fst)
    (empty : ∀ key ∈ bucket, ¬keyPrefix.toList <+: key.toList) :
    Uploaded bucket (store bucket (partObjects keyPrefix 0 bodies)) staged bodies where
  distinct := by
    rw [hparts]
    exact nodup_keys_partObjects keyPrefix 0 bodies
  below := by
    rw [hparts, hkey]
    intro key h
    obtain ⟨i, _, _, rfl⟩ := mem_keys_partObjects.mp h
    exact prefix_partKey keyPrefix i
  stored := by
    have nodup := nodup_keys_partObjects keyPrefix 0 bodies
    calc staged.parts.map (store bucket (partObjects keyPrefix 0 bodies)).lookup
        = (partObjects keyPrefix 0 bodies).map fun o =>
            (store bucket (partObjects keyPrefix 0 bodies)).lookup o.1 := by
          rw [hparts, List.map_map]
          rfl
      _ = (partObjects keyPrefix 0 bodies).map fun o => some o.2 :=
          List.map_congr_left fun _ h => lookup_store_of_mem nodup h
      _ = ((partObjects keyPrefix 0 bodies).map Prod.snd).map some := List.map_map.symm
      _ = bodies.map some := by rw [map_snd_partObjects]
  only := by
    rw [hparts, hkey]
    intro key hkey below
    exact (mem_store.mp hkey).resolve_left fun old => empty key old below
  others := by
    rw [hparts]
    exact fun key h => lookup_store_of_not_mem h

theorem storedLines_eq {bucket' : Bucket UInt8} {staged : StagedSnapshot} {n : Nat}
    (uploaded : Uploaded bucket bucket' staged ((uploads chunks).map Prod.fst))
    (chunked : Chunked n chunks) :
    storedLines bucket' staged = (uploads chunks).map Prod.snd := by
  have counted : ∀ chunk ∈ uploads chunks, (bodyLines chunk.1).length = chunk.2 := by
    unfold uploads
    cases chunks with
    | nil =>
        intro chunk h
        rw [List.mem_singleton.mp h]
        exact congrArg List.length Text.splitLines_nil
    | cons first rest => exact chunked.counted
  calc storedLines bucket' staged
      = (staged.parts.map bucket'.lookup).map fun body => (bodyLines (body.getD [])).length := by
        rw [List.map_map]
        rfl
    _ = (uploads chunks).map fun chunk => (bodyLines chunk.1).length := by
        rw [uploaded.stored, List.map_map, List.map_map]
        rfl
    _ = (uploads chunks).map Prod.snd := List.map_congr_left counted

theorem length_uploads (chunks : List (List UInt8 × Nat)) :
    (uploads chunks).length = max 1 chunks.length := by
  cases chunks with
  | nil => rfl
  | cons chunk chunks => exact (max_eq_right (Nat.le_add_left 1 _)).symm

theorem sum_uploads (chunks : List (List UInt8 × Nat)) :
    ((uploads chunks).map Prod.snd).sum = (chunks.map Prod.snd).sum := by
  cases chunks with
  | nil => rfl
  | cons chunk chunks => rfl

/-- The generator, when it can print every record. -/
theorem exists_chunks (float : List Char → PyFloat) (hrows : 1 ≤ chunkRows)
    (listed : ∀ record ∈ records, Listed record) (short : ∀ record ∈ records, Short record) :
    ∃ chunks, iterJsonlChunks records chunkRows = .ok { chunks := chunks, raised := none } ∧
      Chunked chunkRows.toNat chunks ∧
      List.Forall₂ (fun record bytes => Unjoined record → ReadsBack float record bytes) records
        (chunks.flatMap fun chunk => bodyLines chunk.1) ∧
      chunks.length = records.length ⌈/⌉ chunkRows.toNat ∧
      (chunks.map Prod.snd).sum = records.length := by
  have positive : 0 < chunkRows.toNat := by omega
  have exists_text : ∀ record, ∃ text, record ∈ records → jsonLine record = .ok text ∧
      (∀ c ∈ text, Json.Printable c) ∧
      (Unjoined record → ReadsBack float record (Json.encodeUtf8 text)) := by
    intro record
    by_cases h : record ∈ records
    · obtain ⟨text, htext⟩ := exists_line float (listed record h) (short record h)
      exact ⟨text, fun _ => htext⟩
    · exact ⟨[], fun h' => absurd h' h⟩
  choose line hline using exists_text
  have printable : ∀ text ∈ records.map line, ∀ c ∈ text, Json.Printable c := by
    intro _ htext
    obtain ⟨record, h, rfl⟩ := List.mem_map.mp htext
    exact (hline record h).2.1
  refine ⟨_, ?_, chunked_parts positive printable, ?_, ?_, ?_⟩
  · rw [iterJsonlChunks, if_neg (Int.not_lt.mpr hrows),
      jsonlChunksFrom_eq fun record h => (hline record h).1]
  · rw [flatMap_bodyLines positive printable, List.map_map, List.forall₂_map_right_iff,
      List.forall₂_same]
    exact fun record h => (hline record h).2.2
  · have room : ([] : List (List Char)).length < chunkRows.toNat := positive
    rw [List.length_map, length_chunksFrom room, List.length_nil, Nat.zero_add, List.length_map]
  · rw [sum_rows_parts, List.length_map]

/-- The parts of the generator, when nothing raises, are what a run leaves in S3. -/
theorem exists_staged (hbelow : snapshotPrefix dataset runDate runId pre = .ok keyPrefix)
    (empty : ∀ key ∈ bucket, ¬keyPrefix.toList <+: key.toList) {n : Nat}
    (hchunks : iterJsonlChunks records chunkRows = .ok { chunks := chunks, raised := none })
    (chunked : Chunked n chunks) (number : chunks.length = records.length ⌈/⌉ n)
    (rows : (chunks.map Prod.snd).sum = records.length) :
    ∃ staged bucket', (stageDataset dataset records runId runDate pre chunkRows).run
        { objects := bucket, patience := none } =
          .ok staged { objects := bucket', patience := none } ∧
      staged.keyPrefix = keyPrefix ∧
      Uploaded bucket bucket' staged ((uploads chunks).map Prod.fst) ∧
      Counted records.length n bucket' staged chunks := by
  obtain ⟨id, run⟩ := stageDataset_run hbelow hchunks bucket
  refine ⟨_, _, run, rfl, uploaded_store _ rfl rfl empty, ?_⟩
  have parts := congrArg List.length
    (map_snd_partObjects keyPrefix 0 ((uploads chunks).map Prod.fst))
  rw [List.length_map, List.length_map, length_uploads, number] at parts
  exact
    { rowCount := rows
      partCount := (List.length_map ..).trans parts
      lines := storedLines_eq (uploaded_store _ rfl rfl empty) chunked
      total := sum_uploads chunks }

/-- Staging loses no record and counts right, when no integer is too long; a record comes
back if no surrogates of a pair stand next to each other in it. -/
theorem staging_lossless (float : List Char → PyFloat) (hrows : 1 ≤ chunkRows)
    (listed : ∀ record ∈ records, Listed record) (short : ∀ record ∈ records, Short record) :
    ∃ chunks, iterJsonlChunks records chunkRows = .ok { chunks := chunks, raised := none } ∧
      Chunked chunkRows.toNat chunks ∧
      List.Forall₂ (fun record bytes => Unjoined record → ReadsBack float record bytes) records
        (chunks.flatMap fun chunk => bodyLines chunk.1) ∧
      ∀ (dataset runId pre keyPrefix : String) (runDate : Date) (bucket : Bucket UInt8),
        snapshotPrefix dataset runDate runId pre = .ok keyPrefix →
        (∀ key ∈ bucket, ¬keyPrefix.toList <+: key.toList) →
        ∃ staged bucket', (stageDataset dataset records runId runDate pre chunkRows).run
            { objects := bucket, patience := none } =
              .ok staged { objects := bucket', patience := none } ∧
          staged.keyPrefix = keyPrefix ∧
          Uploaded bucket bucket' staged ((uploads chunks).map Prod.fst) ∧
          Counted records.length chunkRows.toNat bucket' staged chunks := by
  obtain ⟨chunks, iterated, chunked, read, number, rows⟩ :=
    exists_chunks float hrows listed short
  refine ⟨chunks, iterated, chunked, read, ?_⟩
  intro dataset runId pre keyPrefix runDate bucket hbelow empty
  exact exists_staged hbelow empty iterated chunked number rows

/-- A payment with a line break in its note. -/
def samplePayment : Record :=
  ((((OrderedDict.empty.setItem (pyStr "payment_id") (.int 1)).setItem (pyStr "amount")
    (.decimal ⟨false, 14999, -2⟩)).setItem (pyStr "settled_on") (.date .sample)).setItem
    (pyStr "note") (.str (pyStr "late\n\"fee\""))).setItem (pyStr "deleted_at") .none

theorem staging_lossless_sample : ∃ chunks,
    iterJsonlChunks [samplePayment, samplePayment] 1 =
        .ok { chunks := chunks, raised := none } ∧
      Chunked 1 chunks ∧
      List.Forall₂ (fun record bytes => Unjoined record → ReadsBack (fun _ => .nan) record bytes)
        [samplePayment, samplePayment] (chunks.flatMap fun chunk => bodyLines chunk.1) ∧
      ∀ (dataset runId pre keyPrefix : String) (runDate : Date) (bucket : Bucket UInt8),
        snapshotPrefix dataset runDate runId pre = .ok keyPrefix →
        (∀ key ∈ bucket, ¬keyPrefix.toList <+: key.toList) →
        ∃ staged bucket', (stageDataset dataset [samplePayment, samplePayment] runId runDate pre
            1).run { objects := bucket, patience := none } =
              .ok staged { objects := bucket', patience := none } ∧
          staged.keyPrefix = keyPrefix ∧
          Uploaded bucket bucket' staged ((uploads chunks).map Prod.fst) ∧
          Counted 2 1 bucket' staged chunks :=
  staging_lossless (fun _ => .nan) (by decide) (by decide +kernel) (by decide +kernel)

/-- A record of one string. -/
def note (s : PyStr) : Record := OrderedDict.empty.setItem (pyStr "note") (.str s)

theorem entries_note (s : PyStr) : (note s).entries = [(pyStr "note", .str s)] :=
  OrderedDict.entries_setItem_of_notMem _ List.not_mem_nil

theorem eq_of_staged_note {s : PyStr} (h : Staged (note s) v) :
    v = .object [(pyStr "note", .string s)] := by
  obtain ⟨members, rfl, staged⟩ := h
  rw [entries_note] at staged
  cases staged with
  | cons first rest =>
      rename_i member members
      obtain ⟨key, value⟩ := member
      obtain ⟨rfl, hvalue⟩ := first
      cases hvalue
      cases rest
      rfl

/-- Two surrogates are printed as the code point that they encode. -/
theorem jsonLine_pair : jsonLine (note [0xD83D, 0xDE00]) = jsonLine (note [0x1F600]) := by
  decide +kernel

/-- An integer with one digit too many. -/
def longNumber : Record :=
  OrderedDict.empty.setItem (pyStr "n") (.int ((10 ^ Json.maxDigits : Nat) : Int))

theorem json_tooLong {n : Nat} (h : 10 ^ Json.maxDigits ≤ n) :
    (Field.int n).json = .error .tooLong := by
  refine if_pos (Nat.lt_of_not_le fun short => ?_)
  have small := (Nat.length_toDigits_le_iff (by decide) (by decide)).mp short
  exact Nat.not_lt.mpr h small

theorem jsonLine_longNumber : jsonLine longNumber = .error .tooLong := by
  rw [jsonLine, longNumber, OrderedDict.entries_setItem_of_notMem _ List.not_mem_nil]
  show (membersJson [(pyStr "n", _)] >>= _) = _
  rw [membersJson, json_tooLong le_rfl]
  rfl

/-- The line of the two surrogates is that of the character they join to, and reads as
it. -/
theorem exists_line_joined : ∃ text, jsonLine (note [0xD83D, 0xDE00]) = .ok text ∧
    (∀ c ∈ text, Json.Printable c) ∧
    ∀ float, ¬ReadsBack float (note [0xD83D, 0xDE00]) (Json.encodeUtf8 text) := by
  have listed : Listed (note [0x1F600]) := by decide +kernel
  have short : Short (note [0x1F600]) := by decide +kernel
  have unjoined : Unjoined (note [0x1F600]) := by
    rw [Unjoined, entries_note, List.forall_mem_singleton]
    exact ⟨(Json.scalar_pyStr _).unjoined, List.isChain_singleton _⟩
  obtain ⟨text, hline, printable, _⟩ := exists_line (fun _ => .nan) listed short
  refine ⟨text, jsonLine_pair.trans hline, printable, ?_⟩
  rintro float ⟨v, read, staged⟩
  obtain ⟨text', hline', _, read'⟩ := exists_line float listed short
  obtain rfl : text = text' := Except.ok.inj (hline.symm.trans hline')
  obtain ⟨v', read', staged'⟩ := read' unjoined
  obtain rfl : v = v' := Except.ok.inj (read.symm.trans read')
  have same := (eq_of_staged_note staged).symm.trans (eq_of_staged_note staged')
  cases same

/-- The string is printed and not read back, and the integer is not printed. -/
theorem surrogates_joined : Listed (note [0xD83D, 0xDE00]) ∧ Listed longNumber ∧
    (∃ chunks, iterJsonlChunks [note [0xD83D, 0xDE00]] 1 =
        .ok { chunks := chunks, raised := none } ∧
      ∃ bytes ∈ chunks.flatMap fun chunk => bodyLines chunk.1,
        ∀ float, ¬ReadsBack float (note [0xD83D, 0xDE00]) bytes) ∧
    iterJsonlChunks [longNumber] 1 = .ok { chunks := [], raised := some .tooLong } := by
  refine ⟨by decide +kernel, by decide +kernel, ?_, congrArg Except.ok ?_⟩
  · obtain ⟨text, hline, printable, unread⟩ := exists_line_joined
    have iterated : jsonlChunksFrom 1 [] [note [0xD83D, 0xDE00]] =
        { chunks := [part [text]], raised := none } := by
      rw [jsonlChunksFrom, hline]
      rfl
    refine ⟨_, congrArg Except.ok iterated, Json.encodeUtf8 text, ?_, unread⟩
    rw [List.flatMap_singleton, part, bodyLines_body (List.cons_ne_nil _ _)
      (List.forall_mem_singleton.mpr printable)]
    exact List.mem_singleton_self _
  · show jsonlChunksFrom 1 [] [longNumber] = _
    rw [jsonlChunksFrom, jsonLine_longNumber]

end Stage

end PaymentsPlatform.Snowflake.Jsonl
