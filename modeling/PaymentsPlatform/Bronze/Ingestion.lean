import PaymentsPlatform.Bronze.Masking
import PaymentsPlatform.Machine.Run
import PaymentsPlatform.Streaming.Rewind

/-!
# Ingestion

`config/spark/jobs/bronze_from_kafka.py`: the stream that appends the records of the topic
to bronze with their values masked, and the check after it that no Kafka coordinate is
there twice. Kafka keeps the records of a partition by offset and forgets the oldest ones;
Spark appends a micro-batch and records in the checkpoint how far it read in one step, a
stream without a checkpoint starts at the earliest offset, and one whose checkpoint is
behind the earliest offset fails. Any of these may happen at any time, and the checkpoint
may be lost.

* `assert_iff`: the check passes exactly when the coordinates are distinct.
* `Ingestion.Good`: what every run keeps, from `microBatch_cases` alone.
* `bronze_faithful`: every row is the masked record at its coordinates, and every record
  that is still retained and that the stream has passed is there.
* `noReplay_iff`: no state of a run fails the check exactly when every micro-batch reads
  only past what bronze has.
-/

namespace PaymentsPlatform.Bronze

open Streaming

def kafkaTopic : String := "cdc.public.payments"

/-- A row of bronze. -/
structure BronzeRow where
  kafkaKey : Option String
  kafkaValue : Option String
  kafkaTopic : String
  kafkaPartition : ℕ
  kafkaOffset : ℕ
  kafkaTimestamp : Int
  deriving DecidableEq, Repr

/-- What identifies a Kafka record. -/
def BronzeRow.coordinates (r : BronzeRow) : String × ℕ × ℕ :=
  (r.kafkaTopic, r.kafkaPartition, r.kafkaOffset)

/-- `bronze_duplicate_offsets_sql`: the coordinates that occur more than once, each with the
number of its rows. -/
def bronzeDuplicateOffsets (table : List BronzeRow) : List ((String × ℕ × ℕ) × ℕ) :=
  ((Sql.groups BronzeRow.coordinates table).filter fun g => 1 < g.2.length).map
    fun g => (g.1, g.2.length)

/-- The exception of the check: how many coordinates, and a few of them. -/
structure BronzeReplayDetected where
  offending : ℕ
  sample : List ((String × ℕ × ℕ) × ℕ)
  deriving DecidableEq, Repr

/-- The check at the end of a batch: it raises when an offset is there twice. -/
def assertNoReplayedOffsets (table : List BronzeRow) : Except BronzeReplayDetected Unit :=
  let duplicates := bronzeDuplicateOffsets table
  if duplicates.length ≠ 0 then .error ⟨duplicates.length, duplicates.take 5⟩ else .ok ()

/-- A record as its producer sent it. -/
structure Message where
  key : Option String
  value : Option String
  timestamp : Int
  deriving DecidableEq, Repr

/-- All that is ever published to the topic, partition by partition. -/
structure Topic where
  partitions : ℕ
  log : ℕ → List Message

/-- What the masking takes from Python. -/
structure Python where
  float : List Char → PyFloat
  repr : Json → PyStr
  sha256 : List UInt8 → String
  recursionLimit : Nat

def Python.maskUdf (py : Python) : Option String → Except MaskFault (Option String) :=
  Bronze.maskUdf py.float py.repr py.sha256 py.recursionLimit

/-- The topic as far as it is published and still retained, the checkpoint with the next
offset of every partition, and the table. -/
structure Ingestion where
  published : ℕ → ℕ
  earliest : ℕ → ℕ
  checkpoint : Option (ℕ → ℕ)
  table : List BronzeRow

/-- Nothing is published, and nothing was ever ingested. -/
def Ingestion.initial : Ingestion := ⟨fun _ => 0, fun _ => 0, none, []⟩

/-- Where the stream reads on: `startingOffsets=earliest` when there is no checkpoint. -/
def Ingestion.start (s : Ingestion) (p : ℕ) : ℕ :=
  match s.checkpoint with
  | none => s.earliest p
  | some next => next p

/-- The offsets of a partition in a table, in the order of its rows. -/
def offsetsOf (p : ℕ) (table : List BronzeRow) : List ℕ :=
  (table.filter fun r => r.kafkaPartition = p).map BronzeRow.kafkaOffset

/-- What happens to the topic, the checkpoint and the table. -/
inductive IngestionAction where
  | publish (p : ℕ)
  | expire (p offset : ℕ)
  | microBatch (upTo : ℕ → ℕ)
  | loseCheckpoint

section Stream

variable (py : Python) (topic : Topic)

/-- The `select` and the `withColumn` of the stream on one record. -/
def bronzeRow (p : ℕ) (m : Message × ℕ) : Except MaskFault BronzeRow := do
  let value ← py.maskUdf m.1.value
  return { kafkaKey := m.1.key, kafkaValue := value, kafkaTopic := kafkaTopic,
           kafkaPartition := p, kafkaOffset := m.2, kafkaTimestamp := m.1.timestamp }

/-- The rows of a range of offsets of a partition. -/
def partitionRows (p first upTo : ℕ) : Except MaskFault (List BronzeRow) :=
  (((topic.log p).zipIdx.take upTo).drop first).mapM (bronzeRow py p)

/-- The rows of a micro-batch. -/
def batchRows (s : Ingestion) (upTo : ℕ → ℕ) : Except MaskFault (List (List BronzeRow)) :=
  (List.range topic.partitions).mapM fun p => partitionRows py topic p (s.start p) (upTo p)

/-- The broker can serve the offsets of a micro-batch. -/
def Serves (s : Ingestion) (upTo : ℕ → ℕ) : Prop :=
  ∀ p < topic.partitions,
    s.earliest p ≤ s.start p ∧ s.start p ≤ upTo p ∧ upTo p ≤ s.published p

instance (s : Ingestion) (upTo : ℕ → ℕ) : Decidable (Serves topic s upTo) :=
  inferInstanceAs (Decidable (∀ p < topic.partitions,
    s.earliest p ≤ s.start p ∧ s.start p ≤ upTo p ∧ upTo p ≤ s.published p))

/-- The broker serves the micro-batch and no value makes the masking raise. -/
def Commits (s : Ingestion) (upTo : ℕ → ℕ) : Prop :=
  Serves topic s upTo ∧ (batchRows py topic s upTo).isOk = true

instance (s : Ingestion) (upTo : ℕ → ℕ) : Decidable (Commits py topic s upTo) :=
  inferInstanceAs (Decidable (_ ∧ _))

/-- The rows of a micro-batch are appended, and the checkpoint moves. -/
def Ingestion.append (s : Ingestion) (upTo : ℕ → ℕ) (rows : List BronzeRow) : Ingestion :=
  { s with checkpoint := some upTo, table := s.table ++ rows }

/-- A micro-batch that fails leaves everything as it was. -/
def Ingestion.microBatch (s : Ingestion) (upTo : ℕ → ℕ) : Ingestion :=
  if Serves topic s upTo then
    match batchRows py topic s upTo with
    | .ok rows => s.append upTo rows.flatten
    | .error _ => s
  else s

def Ingestion.step (s : Ingestion) : IngestionAction → Ingestion
  | .publish p =>
      { s with published :=
          Function.update s.published p (min (s.published p + 1) (topic.log p).length) }
  | .expire p offset =>
      { s with earliest :=
          Function.update s.earliest p (max (s.earliest p) (min offset (s.published p))) }
  | .microBatch upTo => s.microBatch py topic upTo
  | .loseCheckpoint => { s with checkpoint := none }

end Stream

variable {py : Python} {topic : Topic} {s : Ingestion} {upTo : ℕ → ℕ} {p first last : ℕ}
variable {table rows : List BronzeRow} {r : BronzeRow}

/-- The check passes exactly when the coordinates are distinct. -/
theorem assert_iff : assertNoReplayedOffsets table = .ok () ↔
    (table.map BronzeRow.coordinates).Nodup := by
  have none_twice : (bronzeDuplicateOffsets table).length = 0 ↔
      ∀ g ∈ Sql.groups BronzeRow.coordinates table, g.2.length ≤ 1 := by
    rw [bronzeDuplicateOffsets, List.length_map, List.length_eq_zero_iff, List.filter_eq_nil_iff]
    simp
  have distinct : assertNoReplayedOffsets table = .ok () ↔
      (bronzeDuplicateOffsets table).length = 0 := by
    unfold assertNoReplayedOffsets
    by_cases h : (bronzeDuplicateOffsets table).length = 0 <;> simp [h]
  rw [distinct, none_twice, Sql.nodup_map_iff]
  constructor
  · intro h k
    by_cases hk : k ∈ table.map BronzeRow.coordinates
    · exact h (k, Sql.partition _ k table) (Sql.mem_groups.mpr ⟨hk, rfl⟩)
    · have nothing : Sql.partition BronzeRow.coordinates k table = [] := by
        rw [Sql.partition, List.filter_eq_nil_iff]
        intro r hr
        rw [decide_eq_true_eq]
        exact fun same => hk (same ▸ List.mem_map_of_mem hr)
      rw [nothing]
      exact Nat.zero_le 1
  · intro h g hg
    rw [(Sql.mem_groups.mp hg).2]
    exact h g.1

@[simp] theorem offsetsOf_append (p : ℕ) (xs ys : List BronzeRow) :
    offsetsOf p (xs ++ ys) = offsetsOf p xs ++ offsetsOf p ys := by
  simp [offsetsOf]

theorem offsetsOf_cons (p : ℕ) (r : BronzeRow) (rows : List BronzeRow) :
    offsetsOf p (r :: rows) =
      if r.kafkaPartition = p then r.kafkaOffset :: offsetsOf p rows else offsetsOf p rows := by
  by_cases h : r.kafkaPartition = p <;> simp [offsetsOf, h]

theorem mem_offsetsOf {o : ℕ} :
    o ∈ offsetsOf p table ↔ ∃ r ∈ table, r.kafkaPartition = p ∧ r.kafkaOffset = o := by
  simp [offsetsOf, and_assoc]

/-- The row is the masked record at its coordinates. -/
structure BronzeRow.Of (py : Python) (topic : Topic) (r : BronzeRow) : Prop where
  partition_lt : r.kafkaPartition < topic.partitions
  record : ∃ m, (topic.log r.kafkaPartition)[r.kafkaOffset]? = some m ∧
    bronzeRow py r.kafkaPartition (m, r.kafkaOffset) = .ok r

theorem mapM_ok_iff {ε α β : Type} (f : α → Except ε β) {xs : List α} {ys : List β} :
    xs.mapM f = .ok ys ↔ List.Forall₂ (fun x y => f x = .ok y) xs ys := by
  induction xs generalizing ys with
  | nil => cases ys <;> simp [pure, Except.pure]
  | cons x xs ih =>
      rw [List.mapM_cons, bind_eq_ok]
      constructor
      · rintro ⟨y, hy, h⟩
        obtain ⟨rest, hrest, ⟨⟩⟩ := bind_eq_ok.mp h
        exact .cons hy (ih.mp hrest)
      · rintro (_ | ⟨hy, rest⟩)
        exact ⟨_, hy, bind_eq_ok.mpr ⟨_, ih.mpr rest, rfl⟩⟩

theorem exists_of_forall₂ {α β : Type} {R : α → β → Prop} {xs : List α} {ys : List β} {y : β}
    (related : List.Forall₂ R xs ys) (hy : y ∈ ys) : ∃ x ∈ xs, R x y := by
  induction related with
  | nil => cases hy
  | cons here _ ih =>
      rcases List.mem_cons.mp hy with rfl | hy
      · exact ⟨_, List.mem_cons_self, here⟩
      · obtain ⟨x, hx, hxy⟩ := ih hy
        exact ⟨x, List.mem_cons_of_mem _ hx, hxy⟩

theorem bronzeRow_ok {m : Message × ℕ} (h : bronzeRow py p m = .ok r) :
    r.kafkaTopic = kafkaTopic ∧ r.kafkaPartition = p ∧ r.kafkaOffset = m.2 := by
  obtain ⟨value, _, ⟨⟩⟩ := bind_eq_ok.mp h
  exact ⟨rfl, rfl, rfl⟩

/-- Rows read one by one: what they are, and their offsets. -/
theorem forall₂_bronzeRow {ms : List (Message × ℕ)}
    (read : List.Forall₂ (fun m r => bronzeRow py p m = .ok r) ms rows) :
    rows.map BronzeRow.kafkaOffset = ms.map Prod.snd ∧
      ∀ r ∈ rows, r.kafkaPartition = p ∧ ∃ m, (m, r.kafkaOffset) ∈ ms ∧
        bronzeRow py p (m, r.kafkaOffset) = .ok r := by
  induction read with
  | nil => simp
  | @cons m r ms rows here _ ih =>
      obtain ⟨_, hpartition, hoffset⟩ := bronzeRow_ok here
      refine ⟨by rw [List.map_cons, List.map_cons, hoffset, ih.1], fun r' hr' => ?_⟩
      rcases List.mem_cons.mp hr' with rfl | hr'
      · exact ⟨hpartition, m.1, hoffset ▸ List.mem_cons_self, hoffset ▸ here⟩
      · obtain ⟨hp, m', hm', hrow⟩ := ih.2 r' hr'
        exact ⟨hp, m', List.mem_cons_of_mem _ hm', hrow⟩

theorem offsetsOf_of_partition {q : ℕ} (all : ∀ r ∈ rows, r.kafkaPartition = q) :
    offsetsOf p rows = if q = p then rows.map BronzeRow.kafkaOffset else [] := by
  unfold offsetsOf
  split
  · rename_i same
    rw [List.filter_eq_self.mpr fun r hr => by simp [all r hr, same]]
  · rename_i differ
    rw [List.filter_eq_nil_iff.mpr fun r hr => by simp [all r hr, differ], List.map_nil]

theorem partitionRows_ok (h : partitionRows py topic p first last = .ok rows)
    (within : last ≤ (topic.log p).length) :
    rows.map BronzeRow.kafkaOffset = List.range' first (last - first) ∧
      ∀ r ∈ rows, r.kafkaPartition = p ∧ ∃ m, (topic.log p)[r.kafkaOffset]? = some m ∧
        bronzeRow py p (m, r.kafkaOffset) = .ok r := by
  obtain ⟨offsets, of⟩ := forall₂_bronzeRow ((mapM_ok_iff _).mp h)
  constructor
  · rw [offsets, List.map_drop, List.map_take, List.zipIdx_map_snd,
      List.take_range'_of_length_ge within, List.drop_range']
    simp
  · intro r hr
    obtain ⟨hp, m, hm, hrow⟩ := of r hr
    refine ⟨hp, m, ?_, hrow⟩
    exact List.mk_mem_zipIdx_iff_getElem?.mp (List.mem_of_mem_take (List.mem_of_mem_drop hm))

/-- The parts of a micro-batch, each of its own partition. -/
theorem offsetsOf_flatten {ps : List ℕ} {parts : List (List BronzeRow)} {begins : ℕ → ℕ}
    (distinct : ps.Nodup) (within : ∀ q ∈ ps, upTo q ≤ (topic.log q).length)
    (read : List.Forall₂ (fun q rows => partitionRows py topic q (begins q) (upTo q) = .ok rows)
      ps parts) :
    offsetsOf p parts.flatten =
      if p ∈ ps then List.range' (begins p) (upTo p - begins p) else [] := by
  induction read with
  | nil => simp [offsetsOf]
  | @cons q rows ps parts here _ ih =>
      obtain ⟨fresh, distinct⟩ := List.nodup_cons.mp distinct
      obtain ⟨offsets, of⟩ := partitionRows_ok here (within q List.mem_cons_self)
      rw [List.flatten_cons, offsetsOf_append, ih distinct fun q hq =>
        within q (List.mem_cons_of_mem _ hq), offsetsOf_of_partition fun r hr => (of r hr).1]
      by_cases same : q = p
      · subst same
        rw [if_pos rfl, if_neg fresh, if_pos List.mem_cons_self, offsets, List.append_nil]
      · have iff : p ∈ q :: ps ↔ p ∈ ps := by simp [Ne.symm same]
        simp only [if_neg same, List.nil_append, iff]

/-- What a micro-batch does: nothing, or it appends the rows of the offsets it was given. -/
theorem microBatch_cases (py : Python)
    (within : ∀ p, s.published p ≤ (topic.log p).length) (upTo : ℕ → ℕ) :
    ¬Commits py topic s upTo ∧ s.microBatch py topic upTo = s ∨
      Commits py topic s upTo ∧ ∃ rows, s.microBatch py topic upTo = s.append upTo rows ∧
        (∀ r ∈ rows, r.Of py topic) ∧ ∀ p < topic.partitions,
          offsetsOf p rows = List.range' (s.start p) (upTo p - s.start p) := by
  unfold Ingestion.microBatch Commits
  by_cases serves : Serves topic s upTo
  · rw [if_pos serves]
    cases h : batchRows py topic s upTo with
    | error e => exact .inl ⟨fun commits => Bool.noConfusion commits.2, rfl⟩
    | ok parts =>
        have read := (mapM_ok_iff _).mp h
        have inside : ∀ q ∈ List.range topic.partitions, upTo q ≤ (topic.log q).length :=
          fun q hq => (serves q (List.mem_range.mp hq)).2.2.trans (within q)
        refine .inr ⟨⟨serves, rfl⟩, parts.flatten, rfl, fun r hr => ?_, fun p hp => ?_⟩
        · obtain ⟨rows, hrows, hr⟩ := List.mem_flatten.mp hr
          obtain ⟨q, hq, hread⟩ := exists_of_forall₂ read hrows
          obtain ⟨rfl, record⟩ := (partitionRows_ok hread (inside q hq)).2 r hr
          exact ⟨List.mem_range.mp hq, record⟩
        · rw [offsetsOf_flatten List.nodup_range inside read, if_pos (List.mem_range.mpr hp)]
  · rw [if_neg serves]
    exact .inl ⟨fun commits => serves commits.1, rfl⟩

/-- The first offset past every row of a partition. -/
def Ingestion.mark (s : Ingestion) (p : ℕ) : ℕ := Streaming.mark 0 (offsetsOf p s.table)

/-- What every run keeps. Above the earliest offset bronze has no holes, so that a stream
that starts before its mark meets what it already has. -/
structure Ingestion.Good (py : Python) (topic : Topic) (s : Ingestion) : Prop where
  published_le : ∀ p, s.published p ≤ (topic.log p).length
  rows : ∀ r ∈ s.table, r.Of py topic
  start_le : ∀ p < topic.partitions, s.start p ≤ max (s.mark p) (s.earliest p)
  retained : ∀ p < topic.partitions, ∀ o, s.earliest p ≤ o → o < s.mark p →
    o ∈ offsetsOf p s.table

theorem Ingestion.good_initial (py : Python) (topic : Topic) : initial.Good py topic where
  published_le _ := Nat.zero_le _
  rows r hr := by cases hr
  start_le _ _ := Nat.zero_le _
  retained _ _ _ _ below := absurd below (Nat.not_lt_zero _)

namespace Ingestion

variable {a : IngestionAction} {actions : List IngestionAction}

/-- The mark after a micro-batch. -/
theorem mark_append (offsets : offsetsOf p rows = List.range' (s.start p) (upTo p - s.start p))
    (le : s.start p ≤ upTo p) : (s.append upTo rows).mark p =
      if s.start p = upTo p then s.mark p else max (s.mark p) (upTo p) := by
  rw [mark, append, offsetsOf_append, offsets, Streaming.mark_append, mark_range', ← mark]
  by_cases none_read : s.start p = upTo p
  · rw [if_pos (by omega), if_pos none_read]
  · rw [if_neg (by omega), if_neg none_read]
    congr 1
    omega

theorem good_microBatch (good : s.Good py topic) (upTo : ℕ → ℕ) :
    (s.microBatch py topic upTo).Good py topic := by
  obtain ⟨_, same⟩ | ⟨⟨serves, _⟩, rows, here, of, offsets⟩ :=
    microBatch_cases py good.published_le upTo
  · rwa [same]
  · rw [here]
    have marks := fun p hp => mark_append (offsets p hp) (serves p hp).2.1
    refine ⟨good.published_le, fun r hr => ?_, fun p hp => ?_, fun p hp o retained below => ?_⟩
    · exact (List.mem_append.mp hr).elim (good.rows r) (of r)
    · have before := good.start_le p hp
      rw [marks p hp]
      change upTo p ≤ max _ (s.earliest p)
      split <;> omega
    · rw [marks p hp] at below
      rw [append, offsetsOf_append, offsets p hp, List.mem_append, List.mem_range'_1]
      obtain ⟨_, le, _⟩ := serves p hp
      have before := good.start_le p hp
      have held := good.retained p hp o retained
      by_cases old : o < s.mark p
      · exact .inl (held old)
      · -- past everything in the table, hence in what the micro-batch read
        right
        change s.earliest p ≤ o at retained
        split at below <;> omega

theorem earliest_le_expire (py : Python) (topic : Topic) (s : Ingestion) (p offset q : ℕ) :
    s.earliest q ≤ (s.step py topic (.expire p offset)).earliest q := by
  change s.earliest q ≤ Function.update s.earliest p _ q
  by_cases here : q = p
  · subst here
    rw [Function.update_self]
    exact le_max_left _ _
  · rw [Function.update_of_ne here]

/-- Retention moves the start of a stream forward, and only when there is no checkpoint. -/
theorem start_expire (py : Python) (topic : Topic) (s : Ingestion) (p offset q : ℕ) :
    s.start q ≤ (s.step py topic (.expire p offset)).start q ∧
      ((s.step py topic (.expire p offset)).start q =
          (s.step py topic (.expire p offset)).earliest q ∨
        (s.step py topic (.expire p offset)).start q = s.start q) := by
  have grows := earliest_le_expire py topic s p offset q
  simp only [start, step] at grows ⊢
  cases s.checkpoint with
  | none => exact ⟨grows, .inl rfl⟩
  | some next => exact ⟨le_refl _, .inr rfl⟩

theorem good_step (good : s.Good py topic) (a : IngestionAction) :
    (s.step py topic a).Good py topic := by
  cases a with
  | publish p =>
      refine ⟨fun q => ?_, good.rows, good.start_le, good.retained⟩
      change Function.update s.published p _ q ≤ _
      by_cases here : q = p
      · subst here
        rw [Function.update_self]
        exact min_le_right _ _
      · rw [Function.update_of_ne here]
        exact good.published_le q
  | expire p offset =>
      have grows := earliest_le_expire py topic s p offset
      refine ⟨good.published_le, good.rows, fun q hq => ?_, fun q hq o retained =>
        good.retained q hq o ((grows q).trans retained)⟩
      have before := good.start_le q hq
      obtain ⟨_, reset | kept⟩ := start_expire py topic s p offset q
      · exact reset ▸ le_max_right _ _
      · rw [kept]
        exact before.trans (max_le_max_left _ (grows q))
  | microBatch upTo => exact good_microBatch good upTo
  | loseCheckpoint =>
      refine ⟨good.published_le, good.rows, fun q hq => ?_, good.retained⟩
      exact le_max_right _ _

theorem good_run (py : Python) (topic : Topic) (actions : List IngestionAction) :
    (Machine.run (step py topic) initial actions).Good py topic :=
  Machine.run_invariant (good_initial py topic) (fun _ a good => good_step good a) actions

/-- In every run, with any loss of the checkpoint and any retention: every row of bronze
is the masked record at its coordinates, and every record that is still retained and lies
before where the stream stands is there. -/
theorem bronze_faithful (py : Python) (topic : Topic) (actions : List IngestionAction) :
    (∀ r ∈ (Machine.run (step py topic) initial actions).table, r.Of py topic) ∧
      ∀ p < topic.partitions, ∀ o,
        (Machine.run (step py topic) initial actions).earliest p ≤ o →
          o < (Machine.run (step py topic) initial actions).start p →
            ∃ r ∈ (Machine.run (step py topic) initial actions).table,
              r.kafkaPartition = p ∧ r.kafkaOffset = o := by
  have good := good_run py topic actions
  refine ⟨good.rows, fun p hp o retained passed => mem_offsetsOf.mp ?_⟩
  have start := good.start_le p hp
  exact good.retained p hp o retained (by omega)

end Ingestion

/-- A micro-batch that commits reads only past what bronze has. -/
def Fresh (py : Python) (topic : Topic) (s : Ingestion) : IngestionAction → Prop
  | .microBatch upTo =>
      Commits py topic s upTo → ∀ p < topic.partitions, s.start p < upTo p → s.mark p ≤ s.start p
  | _ => True

namespace Ingestion

variable {a : IngestionAction} {actions : List IngestionAction}

/-- The coordinates are distinct when the offsets of every partition are. -/
theorem nodup_coordinates (of : ∀ r ∈ table, r.Of py topic) :
    (table.map BronzeRow.coordinates).Nodup ↔
      ∀ p < topic.partitions, (offsetsOf p table).Nodup := by
  have sameTopic : ∀ r ∈ table, r.kafkaTopic = kafkaTopic := fun r hr => by
    obtain ⟨m, _, hrow⟩ := (of r hr).record
    exact (bronzeRow_ok hrow).1
  simp only [offsetsOf, List.Nodup, List.pairwise_map, List.pairwise_filter]
  constructor
  · intro h p _
    refine h.imp_of_mem fun {r r'} hr hr' differ hp hp' same => differ ?_
    rw [decide_eq_true_eq] at hp hp'
    simp only [BronzeRow.coordinates, sameTopic r hr, sameTopic r' hr', hp, hp', same]
  · intro h
    rw [List.pairwise_iff_getElem]
    intro i j hi hj lt same
    have partition_lt := (of _ (List.getElem_mem hi)).partition_lt
    obtain ⟨_, hp, ho⟩ : _ ∧ _ ∧ _ := by simpa [BronzeRow.coordinates] using same
    exact List.pairwise_iff_getElem.mp (h _ partition_lt) i j hi hj lt (by simp) (by simp [hp]) ho

/-- Offsets read on from `first` are new exactly when the mark is not past it. -/
theorem disjoint_iff (good : s.Good py topic) {p : ℕ} (hp : p < topic.partitions)
    (retained : s.earliest p ≤ s.start p) :
    (offsetsOf p s.table).Disjoint (List.range' (s.start p) (last - s.start p)) ↔
      (s.start p < last → s.mark p ≤ s.start p) := by
  constructor
  · intro disjoint reads
    by_contra below
    have held := good.retained p hp _ retained (not_le.mp below)
    exact disjoint held (List.mem_range'_1.mpr ⟨le_refl _, by omega⟩)
  · intro fresh o hold hnew
    obtain ⟨low, high⟩ := List.mem_range'_1.mp hnew
    have below : o < s.mark p := lt_mark_of_mem hold
    have := fresh (by omega)
    omega

/-- A step keeps the check passing exactly when it is fresh. -/
theorem assert_step_iff (good : s.Good py topic)
    (passes : assertNoReplayedOffsets s.table = .ok ()) (a : IngestionAction) :
    assertNoReplayedOffsets (s.step py topic a).table = .ok () ↔ Fresh py topic s a := by
  cases a with
  | microBatch upTo =>
      obtain ⟨fails, same⟩ | ⟨commits, rows, here, of, offsets⟩ :=
        microBatch_cases py good.published_le upTo
      · have table : (s.step py topic (.microBatch upTo)).table = s.table := congrArg table same
        rw [table]
        exact ⟨fun _ commits => absurd commits fails, fun _ => passes⟩
      · have table : (s.step py topic (.microBatch upTo)).table = s.table ++ rows :=
          congrArg table here
        have all : ∀ r ∈ s.table ++ rows, r.Of py topic :=
          fun r hr => (List.mem_append.mp hr).elim (good.rows r) (of r)
        have before := (nodup_coordinates good.rows).mp (assert_iff.mp passes)
        have fresh_iff : Fresh py topic s (.microBatch upTo) ↔
            ∀ p < topic.partitions, s.start p < upTo p → s.mark p ≤ s.start p :=
          ⟨fun fresh => fresh commits, fun fresh _ => fresh⟩
        rw [table, assert_iff, nodup_coordinates all, fresh_iff]
        refine forall₂_congr fun p hp => ?_
        rw [offsetsOf_append, List.nodup_append', offsets p hp,
          disjoint_iff good hp (commits.1 p hp).1]
        exact ⟨fun h => h.2.2, fun h => ⟨before p hp, List.nodup_range' 1, h⟩⟩
  | publish p => exact ⟨fun _ => trivial, fun _ => passes⟩
  | expire p offset => exact ⟨fun _ => trivial, fun _ => passes⟩
  | loseCheckpoint => exact ⟨fun _ => trivial, fun _ => passes⟩

/-- While the checkpoint is kept, the stream stands past everything in bronze. -/
theorem fresh_of_kept (kept : ∀ a ∈ actions, a ≠ .loseCheckpoint) :
    Machine.Along (step py topic) (Fresh py topic) initial actions := by
  have init : initial.Good py topic ∧ ∀ p < topic.partitions, initial.mark p ≤ initial.start p :=
    ⟨good_initial py topic, fun _ _ => Nat.zero_le _⟩
  refine Machine.along_of_invariant (I := fun s => s.Good py topic ∧
    ∀ p < topic.partitions, s.mark p ≤ s.start p) init ?_
  rintro s ⟨good, past⟩ a ha
  refine ⟨?_, good_step good a, fun p hp => ?_⟩
  · cases a with
    | microBatch upTo => exact fun _ p hp _ => past p hp
    | publish p => trivial
    | expire p offset => trivial
    | loseCheckpoint => trivial
  · cases a with
    | publish q => exact past p hp
    | expire q offset => exact (past p hp).trans (start_expire py topic s q offset p).1
    | loseCheckpoint => exact absurd rfl (kept _ ha)
    | microBatch upTo =>
        change (s.microBatch py topic upTo).mark p ≤ (s.microBatch py topic upTo).start p
        obtain ⟨_, same⟩ | ⟨commits, rows, here, _, offsets⟩ :=
          microBatch_cases py good.published_le upTo
        · rw [same]
          exact past p hp
        · obtain ⟨_, le, _⟩ := commits.1 p hp
          have before := past p hp
          rw [here, mark_append (offsets p hp) le]
          change _ ≤ upTo p
          split <;> omega

/-- In every run, no state fails the check exactly when every micro-batch that commits
reads only past what bronze has; that is so as long as the checkpoint is kept. -/
theorem noReplay_iff (py : Python) (topic : Topic) (actions : List IngestionAction) :
    (Machine.Always (step py topic) (fun s => assertNoReplayedOffsets s.table = .ok ()) initial
        actions ↔ Machine.Along (step py topic) (Fresh py topic) initial actions) ∧
      ((∀ a ∈ actions, a ≠ .loseCheckpoint) →
        Machine.Always (step py topic) (fun s => assertNoReplayedOffsets s.table = .ok ()) initial
          actions) := by
  have exact_fresh : Machine.Always (step py topic)
      (fun s => assertNoReplayedOffsets s.table = .ok ()) initial actions ↔
        Machine.Along (step py topic) (Fresh py topic) initial actions :=
    Machine.always_iff_along (good_initial py topic) (fun _ a good => good_step good a)
      (assert_iff.mpr List.nodup_nil) fun _ a good passes => assert_step_iff good passes a
  exact ⟨exact_fresh, fun kept => exact_fresh.mpr (fresh_of_kept kept)⟩

end Ingestion

end PaymentsPlatform.Bronze
