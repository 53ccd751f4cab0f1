import PaymentsPlatform.Bronze.Ingestion
import PaymentsPlatform.Sequenced.Passes
import PaymentsPlatform.Silver.Source

/-!
# From the topic to silver

The two streams together: `bronze_from_kafka.py` appends the topic to bronze, and
`silver_payments.py` calls `_upsert_to_silver` on stretches of bronze, each stream under
its own checkpoint. Publishing, retention, micro-batches of either stream and losses of
either checkpoint happen in any order. A call that raises stops the silver stream in front
of its rows.

A payment sees the run as a reader of its partition that is set back by every loss
(`Sequenced.Passes`). `Good` carries that through the run, and `silver_converges` says
what it is for: once both streams have caught up silver is the source table, however much
was ingested and applied again on the way.
-/

namespace PaymentsPlatform.Lakehouse

open Streaming Bronze Silver

/-- The topic with bronze, how many rows of bronze the silver stream has applied, and the
tables it writes. -/
structure Delivery where
  ingestion : Ingestion
  applied : ℕ
  tables : Tables String

def Delivery.initial : Delivery := ⟨.initial, 0, ⟨[], []⟩⟩

/-- What happens to it: a step of ingestion, a micro-batch of the silver stream over the
next rows, the loss of its checkpoint. -/
inductive Action where
  | bronze (a : IngestionAction)
  | silver (rows : ℕ) (batchId now : Int)
  | loseSilverCheckpoint

/-- The columns of a bronze row that silver reads. -/
def record (r : BronzeRow) : Record String :=
  { kafkaPartition := r.kafkaPartition, kafkaOffset := r.kafkaOffset, kafkaValue := r.kafkaValue }

/-- The rows a micro-batch of the silver stream gets. -/
def Delivery.next (s : Delivery) (rows : ℕ) : List BronzeRow :=
  (s.ingestion.table.drop s.applied).take rows

/-- The call of `_upsert_to_silver` on them. -/
def Delivery.batch (s : Delivery) (rows : ℕ) (batchId now : Int) : MicroBatch String :=
  { batchId := batchId, now := now, records := (s.next rows).map record }

section Streams

variable {Double : Type} (py : Python) (sp : SparkFunctions String Double) (topic : Topic)

def Delivery.step (s : Delivery) : Action → Delivery
  | .bronze a => { s with ingestion := s.ingestion.step py topic a }
  | .silver rows batchId now =>
      match (upsertToSilver sp (s.batch rows batchId now)).run s.tables with
      | .ok _ tables => { s with applied := s.applied + (s.next rows).length, tables := tables }
      | .error _ tables => { s with tables := tables }
  | .loseSilverCheckpoint => { s with applied := 0 }

/-- The record at an offset as bronze stores it; none where the masking raises. -/
def recordAt (p o : ℕ) : Option (Record String) :=
  ((topic.log p)[o]?).bind fun m => (bronzeRow py p (m, o)).toOption.map record

/-- The records of a partition. -/
def recordsOf (p : ℕ) : List (Record String) :=
  (List.range (topic.log p).length).filterMap (recordAt py topic p)

/-- The change a record makes to the cell of `k`, apart from the ingestion time. -/
def changeOfRecord (k : Int) (r : Record String) : Option (Sequenced.Change Int SilverRow) :=
  if (Sql.isIn (opOf sp r.kafkaValue) cdcOps).holds then eventAt sp 0 k r.kafkaValue else none

/-- The partition as a log of changes of `k`. -/
def logOf (k : Int) (p : ℕ) : Sequenced.Log Int SilverRow :=
  fun o => (recordAt py topic p o).bind (changeOfRecord sp k)

/-- A bronze stream that starts over finds the topic retained from where it stood. -/
def Contiguous (s : Delivery) : Action → Prop
  | .bronze (.microBatch upTo) =>
      s.ingestion.checkpoint = none → Commits py topic s.ingestion upTo →
        ∀ p < topic.partitions,
          s.ingestion.earliest p ≤ position 0 (offsetsOf p s.ingestion.table)
  | _ => True

instance (s : Delivery) : ∀ a, Decidable (Contiguous py topic s a)
  | .bronze (.microBatch _) =>
      inferInstanceAs
        (Decidable (s.ingestion.checkpoint = none → _ → ∀ p < topic.partitions, _ ≤ _))
  | .bronze (.publish _) => .isTrue trivial
  | .bronze (.expire _ _) => .isTrue trivial
  | .bronze .loseCheckpoint => .isTrue trivial
  | .silver _ _ _ => .isTrue trivial
  | .loseSilverCheckpoint => .isTrue trivial

end Streams

/-- The streams have read all there is. -/
structure Delivery.CaughtUp (topic : Topic) (s : Delivery) : Prop where
  bronze : ∀ p < topic.partitions, (topic.log p).length ≤ s.ingestion.start p
  ingested : s.ingestion.checkpoint ≠ none
  silver : s.applied = s.ingestion.table.length

variable {Double : Type} {py : Python} {sp : SparkFunctions String Double} {topic : Topic}
variable {s : Delivery} {k : Int} {p : ℕ} {rows : List BronzeRow} {r : BronzeRow}

theorem loggedAt_eq_filterMap (records : List (Record String)) :
    loggedAt sp k records = records.filterMap (changeOfRecord sp k) := by
  induction records with
  | nil => rfl
  | cons r records ih =>
      by_cases event : (Sql.isIn (opOf sp r.kafkaValue) cdcOps).holds
      · obtain ⟨op, hmem, hop⟩ := Sql.isIn_holds.mp event
        rw [loggedAt, processable_cons_event hop hmem, List.filterMap_cons, List.filterMap_cons,
          ← ih, changeOfRecord, if_pos event, loggedAt]
      · have noise : Noise sp r := fun op hmem hop => event (Sql.isIn_holds.mpr ⟨op, hmem, hop⟩)
        have silent : changeOfRecord sp k r = none := if_neg event
        rw [loggedAt, processable_cons_noise noise, List.filterMap_cons_none silent, ← ih, loggedAt]

/-- A row of bronze is the record at its coordinates. -/
theorem recordAt_of (of : r.Of py topic) :
    recordAt py topic r.kafkaPartition r.kafkaOffset = some (record r) := by
  obtain ⟨m, hm, hrow⟩ := of.record
  rw [recordAt, hm, Option.bind_some, hrow]
  rfl

/-- The partition of a payment as a log, as a list. -/
theorem filterMap_logOf (py : Python) (sp : SparkFunctions String Double) (topic : Topic)
    (k : Int) (p : ℕ) : (List.range (topic.log p).length).filterMap (logOf py sp topic k p) =
      loggedAt sp k (recordsOf py topic p) := by
  rw [loggedAt_eq_filterMap, recordsOf, List.filterMap_filterMap]
  rfl

/-- When the events of `k` are all in `p`, a stretch of bronze makes the changes that the
log of `p` has at its offsets. -/
theorem loggedAt_rows (of : ∀ r ∈ rows, r.Of py topic)
    (elsewhere : ∀ q, q ≠ p → ∀ o, logOf py sp topic k q o = none) :
    loggedAt sp k (rows.map record) = (offsetsOf p rows).filterMap (logOf py sp topic k p) := by
  rw [loggedAt_eq_filterMap]
  induction rows with
  | nil => rfl
  | cons r rows ih =>
      have here : changeOfRecord sp k (record r) =
          logOf py sp topic k r.kafkaPartition r.kafkaOffset := by
        rw [logOf, recordAt_of (of r List.mem_cons_self), Option.bind_some]
      have rest := ih fun r' hr' => of r' (List.mem_cons_of_mem _ hr')
      rw [List.map_cons, List.filterMap_cons, here, rest]
      rw [offsetsOf_cons]
      by_cases same : r.kafkaPartition = p
      · rw [if_pos same, List.filterMap_cons, same]
      · rw [if_neg same, elsewhere _ same]

/-- One history whose payments each have a partition, as the topic carries it. -/
structure Carries (py : Python) (sp : SparkFunctions String Double) (topic : Topic)
    (partitionOf : Int → ℕ) (history : List (SourceEvent String)) : Prop where
  partition_lt : ∀ k, partitionOf k < topic.partitions
  feeds : ∀ p, Feed sp (history.filter fun e => partitionOf e.payment = p) (recordsOf py topic p)
  lsns : history.Pairwise fun e₁ e₂ => e₁.payment = e₂.payment → e₁.lsn < e₂.lsn

variable {partitionOf : Int → ℕ} {history : List (SourceEvent String)}

namespace Carries

/-- The log of a partition in terms of the history. -/
theorem filterMap_logOf (carries : Carries py sp topic partitionOf history) (k : Int) (p : ℕ) :
    (List.range (topic.log p).length).filterMap (logOf py sp topic k p) =
      (history.filter fun e => partitionOf e.payment = p).filterMap
        (SourceEvent.changeFor sp k) := by
  rw [Lakehouse.filterMap_logOf, (carries.feeds p).loggedAt_eq]

theorem logOf_eq_none_of_le {o : ℕ} (past : (topic.log p).length ≤ o) :
    logOf py sp topic k p o = none := by
  rw [logOf, recordAt, List.getElem?_eq_none past]
  rfl

/-- No other partition has events of a payment. -/
theorem elsewhere (carries : Carries py sp topic partitionOf history) (k : Int) (q : ℕ)
    (differ : q ≠ partitionOf k) (o : ℕ) : logOf py sp topic k q o = none := by
  by_cases past : (topic.log q).length ≤ o
  · exact logOf_eq_none_of_le past
  have nothing : (List.range (topic.log q).length).filterMap (logOf py sp topic k q) = [] := by
    rw [carries.filterMap_logOf, List.filterMap_eq_nil_iff]
    intro e he
    refine if_neg fun same => differ ?_
    rw [← same]
    exact (of_decide_eq_true (List.mem_filter.mp he).2).symm
  exact List.filterMap_eq_nil_iff.mp nothing o (List.mem_range.mpr (not_le.mp past))

/-- The changes of a payment are in the order of their tokens. -/
theorem increasing (carries : Carries py sp topic partitionOf history) (k : Int) (p : ℕ) :
    (logOf py sp topic k p).Increasing := by
  have ordered : ((List.range (topic.log p).length).filterMap (logOf py sp topic k p)).Pairwise
      fun e₁ e₂ => e₁.token < e₂.token := by
    rw [carries.filterMap_logOf, List.pairwise_filterMap]
    refine (carries.lsns.sublist List.filter_sublist).imp fun newer e₁ h₁ e₂ h₂ => ?_
    obtain ⟨same₁, ⟨⟩⟩ := Option.ite_none_right_eq_some.mp h₁
    obtain ⟨same₂, ⟨⟩⟩ := Option.ite_none_right_eq_some.mp h₂
    exact newer (same₁.trans same₂.symm)
  intro i j e₁ e₂ h₁ h₂ lt
  have inside : ∀ {o e}, logOf py sp topic k p o = some e → o < (topic.log p).length := by
    intro o e h
    by_contra past
    rw [logOf_eq_none_of_le (not_lt.mp past)] at h
    cases h
  rw [List.pairwise_filterMap, List.pairwise_iff_getElem] at ordered
  have hi := inside h₁
  have hj := inside h₂
  exact ordered i j (by simpa using hi) (by simpa using hj) lt e₁ (by simpa using h₁) e₂
    (by simpa using h₂)

/-- A payment's partition is enough of the history to know its row. -/
theorem sourceTable_filter (history : List (SourceEvent String)) (partitionOf : Int → ℕ) (k : Int) :
    sourceTable (history.filter fun e => partitionOf e.payment = partitionOf k) k =
      sourceTable history k := by
  induction history using List.reverseRecOn with
  | nil => rfl
  | append_singleton history e ih =>
      rw [List.filter_append, sourceTable, sourceTable, List.foldl_append, List.foldl_append,
        ← sourceTable, ← sourceTable]
      by_cases same : partitionOf e.payment = partitionOf k
      · rw [List.filter_cons_of_pos (by simpa using same), List.filter_nil, List.foldl_cons,
          List.foldl_cons, List.foldl_nil, List.foldl_nil, SourceTable.apply, SourceTable.apply]
        by_cases hk : k = e.payment
        · rw [hk, Function.update_self, Function.update_self]
        · rw [Function.update_of_ne hk, Function.update_of_ne hk, ih]
      · have hk : k ≠ e.payment := fun hk => same (by rw [hk])
        rw [List.filter_cons_of_neg (by simpa using same), List.filter_nil, List.foldl_nil,
          List.foldl_cons, List.foldl_nil, SourceTable.apply, Function.update_of_ne hk, ih]

end Carries

/-- Bronze has the offsets of every partition without a jump, and a stream with a
checkpoint reads on where it stands or before. -/
structure Unbroken (topic : Topic) (s : Ingestion) : Prop where
  noSkip : ∀ p < topic.partitions, NoSkip 0 (offsetsOf p s.table)
  kept : ∀ next, s.checkpoint = some next →
    ∀ p < topic.partitions, next p ≤ position 0 (offsetsOf p s.table)

/-- What every contiguous run keeps: bronze is a reading of the topic, silver of bronze,
and every payment is behind its partition at most by what has to be read again. -/
structure Good (py : Python) (sp : SparkFunctions String Double) (topic : Topic)
    (partitionOf : Int → ℕ) (s : Delivery) : Prop where
  ingestion : s.ingestion.Good py topic
  unbroken : Unbroken topic s.ingestion
  applied_le : s.applied ≤ s.ingestion.table.length
  keyed : Keyed s.tables.silver
  behind : ∀ k, ∃ h ≤ (topic.log (partitionOf k)).length,
    Sequenced.Behind (logOf py sp topic k (partitionOf k))
      (position 0 (offsetsOf (partitionOf k) (s.ingestion.table.take s.applied))) h
      ((cellOf s.tables.silver k).map (Prod.map id SilverRow.ignoringIngestedAt))

theorem good_initial (py : Python) (sp : SparkFunctions String Double) (topic : Topic)
    (partitionOf : Int → ℕ) : Good py sp topic partitionOf .initial where
  ingestion := Ingestion.good_initial py topic
  unbroken := ⟨fun _ _ => trivial, nofun⟩
  applied_le := le_refl 0
  keyed := keyed_nil
  behind _ := ⟨0, Nat.zero_le _, Sequenced.Behind.start _⟩

variable {a : Action} {ingestion : Ingestion}

theorem unbroken_microBatch (good : ingestion.Good py topic) (unbroken : Unbroken topic ingestion)
    {upTo : ℕ → ℕ} (contiguous : ingestion.checkpoint = none → Commits py topic ingestion upTo →
      ∀ p < topic.partitions, ingestion.earliest p ≤ position 0 (offsetsOf p ingestion.table)) :
    Unbroken topic (ingestion.microBatch py topic upTo) ∧
      ∃ rows, (ingestion.microBatch py topic upTo).table = ingestion.table ++ rows := by
  obtain ⟨_, same⟩ | ⟨commits, rows, here, _, offsets⟩ :=
    microBatch_cases py good.published_le upTo
  · rw [same]
    exact ⟨unbroken, [], (List.append_nil _).symm⟩
  have start : ∀ p < topic.partitions,
      ingestion.start p ≤ position 0 (offsetsOf p ingestion.table) := by
    intro p hp
    unfold Ingestion.start
    cases hc : ingestion.checkpoint with
    | none => exact contiguous hc commits p hp
    | some next => exact unbroken.kept next hc p hp
  rw [here]
  refine ⟨⟨fun p hp => ?_, fun next hnext p hp => ?_⟩, rows, rfl⟩
  · rw [Ingestion.append, offsetsOf_append, noSkip_append, offsets p hp]
    exact ⟨unbroken.noSkip p hp, (noSkip_range' _ _).mono (start p hp)⟩
  · obtain rfl : upTo = next := Option.some.inj hnext
    rw [Ingestion.append, offsetsOf_append, position_append, offsets p hp, position_range']
    have le := (commits.1 p hp).2.1
    have := start p hp
    split <;> omega

/-- A step of ingestion appends rows to bronze at most. -/
theorem unbroken_step (good : Good py sp topic partitionOf s) {a : IngestionAction}
    (contiguous : Contiguous py topic s (.bronze a)) :
    Unbroken topic (s.ingestion.step py topic a) ∧
      ∃ rows, (s.ingestion.step py topic a).table = s.ingestion.table ++ rows := by
  cases a with
  | microBatch upTo => exact unbroken_microBatch good.ingestion good.unbroken contiguous
  | publish p => exact ⟨⟨good.unbroken.noSkip, good.unbroken.kept⟩, [], (List.append_nil _).symm⟩
  | expire p o => exact ⟨⟨good.unbroken.noSkip, good.unbroken.kept⟩, [], (List.append_nil _).symm⟩
  | loseCheckpoint => exact ⟨⟨good.unbroken.noSkip, nofun⟩, [], (List.append_nil _).symm⟩

/-- What a batch chooses for `k` is a newest of the changes its rows make. -/
theorem decides_changeAt (carries : Carries py sp topic partitionOf history)
    (batch : MicroBatch String) (of : ∀ r ∈ rows, r.Of py topic)
    (records : batch.records = rows.map record) (k : Int) :
    Sequenced.Decides ((offsetsOf (partitionOf k) rows).filterMap
        (logOf py sp topic k (partitionOf k)))
      ((changeAt sp batch k).map (Sequenced.Change.map SilverRow.ignoringIngestedAt)) := by
  rw [← loggedAt_rows of (carries.elsewhere k), ← records, ← map_eventsAt]
  cases hc : changeAt sp batch k with
  | none =>
      change List.map _ _ = []
      rw [changeAt_eq_none.mp hc, List.map_nil]
  | some e =>
      refine ⟨List.mem_map_of_mem (changeAt_mem hc), fun e' he' => ?_⟩
      obtain ⟨e'', he'', rfl⟩ := List.mem_map.mp he'
      have newest : e''.token ≤ e.token := le_changeAt hc he''
      exact newest

/-- What a micro-batch of the silver stream does: nothing to silver, or the call returns
and its rows are done. -/
theorem step_silver_cases (py : Python) (sp : SparkFunctions String Double) (topic : Topic)
    (s : Delivery) (n : ℕ) (batchId now : Int) :
    ((s.step py sp topic (.silver n batchId now)).ingestion = s.ingestion ∧
        (s.step py sp topic (.silver n batchId now)).applied = s.applied ∧
        (s.step py sp topic (.silver n batchId now)).tables.silver = s.tables.silver) ∨
      Returns sp s.tables (s.batch n batchId now) ∧
        s.step py sp topic (.silver n batchId now) =
          { s with applied := s.applied + (s.next n).length
                   tables := afterBatch sp s.tables (s.batch n batchId now) } := by
  cases h : (upsertToSilver sp (s.batch n batchId now)).run s.tables with
  | ok _ tables =>
      refine .inr ⟨⟨tables, h⟩, ?_⟩
      rw [afterBatch_of_ok h]
      simp only [Delivery.step, h]
  | error e tables =>
      left
      simp only [Delivery.step, h]
      exact ⟨trivial, trivial, upsertToSilver_error_silver h⟩

/-- What a stretch of bronze adds to what silver has applied. -/
theorem take_next (s : Delivery) (n : ℕ) :
    s.ingestion.table.take (s.applied + (s.next n).length) =
      s.ingestion.table.take s.applied ++ s.next n := by
  have whole := List.prefix_iff_eq_take.mp
    (List.take_prefix n (s.ingestion.table.drop s.applied))
  rw [List.take_add, Delivery.next, ← whole]

/-- A micro-batch of the silver stream keeps the invariant. -/
theorem good_silver (carries : Carries py sp topic partitionOf history)
    (good : Good py sp topic partitionOf s) (n : ℕ) (batchId now : Int) :
    Good py sp topic partitionOf (s.step py sp topic (.silver n batchId now)) := by
  obtain ⟨ingestion, applied, silver⟩ | ⟨returns, here⟩ :=
    step_silver_cases py sp topic s n batchId now
  · refine ⟨ingestion ▸ good.ingestion, ingestion ▸ good.unbroken, ?_, silver ▸ good.keyed, ?_⟩
    · rw [ingestion, applied]
      exact good.applied_le
    · rw [ingestion, applied, silver]
      exact good.behind
  rw [here]
  have sub : ∀ r ∈ s.next n, r ∈ s.ingestion.table :=
    fun r hr => List.mem_of_mem_drop (List.mem_of_mem_take hr)
  have of : ∀ r ∈ s.next n, r.Of py topic := fun r hr => good.ingestion.rows r (sub r hr)
  have inside : s.applied + (s.next n).length ≤ s.ingestion.table.length := by
    have := good.applied_le
    rw [Delivery.next, List.length_take, List.length_drop]
    omega
  refine ⟨good.ingestion, good.unbroken, inside, keyed_afterBatch sp _ good.keyed, fun k => ?_⟩
  obtain ⟨h, hle, behind⟩ := good.behind k
  have split : s.ingestion.table = (s.ingestion.table.take s.applied ++ s.next n) ++
      s.ingestion.table.drop (s.applied + (s.next n).length) := by
    rw [← take_next, List.take_append_drop]
  have noSkip : NoSkip (position 0 (offsetsOf (partitionOf k) (s.ingestion.table.take s.applied)))
      (offsetsOf (partitionOf k) (s.next n)) := by
    have whole := good.unbroken.noSkip (partitionOf k) (carries.partition_lt k)
    rw [split, offsetsOf_append, offsetsOf_append, noSkip_append, noSkip_append] at whole
    exact whole.1.2
  have below : ∀ o ∈ offsetsOf (partitionOf k) (s.next n),
      o < (topic.log (partitionOf k)).length := by
    intro o ho
    obtain ⟨r, hr, hp, rfl⟩ := mem_offsetsOf.mp ho
    obtain ⟨m, hm, _⟩ := (of r hr).record
    exact hp ▸ (List.getElem?_eq_some_iff.mp hm).1
  refine ⟨mark h (offsetsOf (partitionOf k) (s.next n)), mark_le hle below, ?_⟩
  have after := behind.step (carries.increasing k _) noSkip
    (decides_changeAt carries (s.batch n batchId now) of rfl k)
  change Sequenced.Behind _ (position 0 (offsetsOf _
    (s.ingestion.table.take (s.applied + (s.next n).length)))) _ _
  rw [take_next, offsetsOf_append, position_append,
    cellOf_afterBatch good.keyed returns, Sequenced.Cell.map_run, ← Option.toList_map]
  exact after

/-- Every step of a contiguous run keeps the invariant. -/
theorem good_step (carries : Carries py sp topic partitionOf history)
    (good : Good py sp topic partitionOf s) (contiguous : Contiguous py topic s a) :
    Good py sp topic partitionOf (s.step py sp topic a) := by
  cases a with
  | bronze a =>
      obtain ⟨unbroken, rows, table⟩ := unbroken_step good contiguous
      have prefix_kept : (s.ingestion.step py topic a).table.take s.applied =
          s.ingestion.table.take s.applied := by
        rw [table, List.take_append_of_le_length good.applied_le]
      refine ⟨Ingestion.good_step good.ingestion a, unbroken, ?_, good.keyed, fun k => ?_⟩
      · change s.applied ≤ (s.ingestion.step py topic a).table.length
        rw [table, List.length_append]
        exact good.applied_le.trans (Nat.le_add_right _ _)
      · change ∃ h ≤ _, Sequenced.Behind _ (position 0 (offsetsOf _
          ((s.ingestion.step py topic a).table.take s.applied))) h _
        rw [prefix_kept]
        exact good.behind k
  | silver n batchId now => exact good_silver carries good n batchId now
  | loseSilverCheckpoint =>
      refine ⟨good.ingestion, good.unbroken, Nat.zero_le _, good.keyed, fun k => ?_⟩
      obtain ⟨h, hle, behind⟩ := good.behind k
      exact ⟨h, hle, behind.rewind (Nat.zero_le _)⟩

/-- Silver against the source, once both streams have caught up. -/
theorem Good.cell_eq (good : Good py sp topic partitionOf s)
    (carries : Carries py sp topic partitionOf history) (caughtUp : s.CaughtUp topic) (k : Int) :
    (cellOf s.tables.silver k).map (Prod.map id SilverRow.ignoringIngestedAt) =
      (sourceTable history k).map fun e => (e.lsn, e.row sp) := by
  obtain ⟨h, hle, behind⟩ := good.behind k
  rw [caughtUp.silver, List.take_length] at behind
  have partition_lt := carries.partition_lt k
  have reached : (topic.log (partitionOf k)).length ≤
      position 0 (offsetsOf (partitionOf k) s.ingestion.table) := by
    obtain ⟨next, hnext⟩ := Option.ne_none_iff_exists'.mp caughtUp.ingested
    have start : s.ingestion.start (partitionOf k) = next (partitionOf k) := by
      rw [Ingestion.start, hnext]
    exact (caughtUp.bronze _ partition_lt).trans
      (start ▸ good.unbroken.kept next hnext _ partition_lt)
  have settled : h = position 0 (offsetsOf (partitionOf k) s.ingestion.table) ∧
      h = (topic.log (partitionOf k)).length := by
    have := behind.le
    omega
  rw [← settled.1] at behind
  rw [behind.converges (carries.increasing k _), settled.2, carries.filterMap_logOf,
    run_history _ (carries.lsns.sublist List.filter_sublist), Carries.sourceTable_filter]

/-- With no rejects in the topic no call raises. -/
theorem returns_of_clean (carries : Carries py sp topic partitionOf history)
    (clean : ∀ p, ∀ r ∈ recordsOf py topic p, Noise sp r → r.kafkaValue = none)
    (good : s.ingestion.Good py topic) (n : ℕ) (batchId now : Int) :
    Returns sp s.tables (s.batch n batchId now) := by
  have logged : ∀ r ∈ (s.batch n batchId now).records, ∃ p, r ∈ recordsOf py topic p := by
    intro r hr
    obtain ⟨row, hrow, rfl⟩ := List.mem_map.mp hr
    have of := good.rows row (List.mem_of_mem_drop (List.mem_of_mem_take hrow))
    obtain ⟨m, hm, _⟩ := of.record
    have inside := (List.getElem?_eq_some_iff.mp hm).1
    exact ⟨row.kafkaPartition, List.mem_filterMap.mpr
      ⟨row.kafkaOffset, List.mem_range.mpr inside, recordAt_of of⟩⟩
  have known : ∀ r ∈ (s.batch n batchId now).records, r.kafkaValue ≠ none →
      ∃ op ∈ cdcOps, opOf sp r.kafkaValue = some op := by
    intro r hr value
    by_contra unknown
    push Not at unknown
    obtain ⟨p, hp⟩ := logged r hr
    exact value (clean p r hp unknown)
  have no_malformed : malformed sp (s.batch n batchId now).records = [] := by
    refine List.eq_nil_iff_forall_not_mem.mpr fun r hr => ?_
    obtain ⟨hmem, ⟨v, value⟩, noOp⟩ := mem_malformed.mp hr
    obtain ⟨op, _, hop⟩ := known r hmem (by simp [value])
    cases noOp.symm.trans hop
  have no_unexpected : unexpected sp (s.batch n batchId now).records = [] := by
    refine List.eq_nil_iff_forall_not_mem.mpr fun r hr => ?_
    obtain ⟨hmem, op, hop, out⟩ := mem_unexpected.mp hr
    obtain ⟨op', inside, hop'⟩ := known r hmem fun null => by
      rw [null] at hop
      cases hop
    cases hop.symm.trans hop'
    exact out inside
  refine returns_of_rejects (recordRejects_of_nil no_malformed no_unexpected _)
    fun r hr upsert => ?_
  have hmem : r ∈ (s.batch n batchId now).records := (mem_processable.mp hr).1
  obtain ⟨p, hp⟩ := logged r hmem
  have processed : r ∈ processable sp (recordsOf py topic p) :=
    mem_processable.mpr ⟨hp, (mem_processable.mp hr).2⟩
  obtain ⟨e, _, hvalue, emitted⟩ := (carries.feeds p).mem_processable processed
  rw [hvalue] at upsert ⊢
  exact validateUpserts_singleton.mp (emitted.valid.quality upsert)

/-- For a source whose upserts satisfy the rules, in every run of the two streams that loses
the bronze checkpoint only while the topic is retained back to where the stream stood: once
both streams have caught up, silver has one row for every live payment of the source, the
projection of its last event, and nothing else. Neither re-consumed records nor where the
streams are cut or set back matter. With no rejects in the topic no call of the silver stream
raises on the way. -/
theorem silver_converges (carries : Carries py sp topic partitionOf history)
    {actions : List Action}
    (contiguous : Machine.Along (Delivery.step py sp topic) (Contiguous py topic) .initial actions)
    (caughtUp : (Machine.run (Delivery.step py sp topic) .initial actions).CaughtUp topic) :
    (∀ r ∈ (Machine.run (Delivery.step py sp topic) .initial actions).tables.silver,
        ∃ k, r.paymentId = some k) ∧
      (∀ k, (rowsOf (Machine.run (Delivery.step py sp topic) .initial actions).tables.silver k).map
          SilverRow.ignoringIngestedAt =
        ((sourceTable history k).map fun e => e.row sp).toList) ∧
      ((∀ p, ∀ r ∈ recordsOf py topic p, Noise sp r → r.kafkaValue = none) →
        Machine.Always (Delivery.step py sp topic)
          (fun s => ∀ rows batchId now, Returns sp s.tables (s.batch rows batchId now))
          .initial actions) := by
  have good := Machine.always_of_along (good_initial py sp topic partitionOf)
    (fun _ _ good contiguous => good_step carries good contiguous) contiguous
  refine ⟨good.final.keyed.identified, fun k => ?_, fun clean => good.mono fun s good => ?_⟩
  · rw [good.final.keyed.rowsOf_eq, map_ignoring_rows, good.final.cell_eq carries caughtUp k,
      Option.map_map]
    rfl
  · exact fun rows batchId now => returns_of_clean carries clean good.ingestion rows batchId now

/-- The text of an insert of payment 1. -/
def createdText : String :=
  "\x7b\"op\": \"c\", \"source\": \x7b\"lsn\": 10\x7d, \"after\": \x7b\"payment_id\": 1, " ++
  "\"merchant_id\": 7, \"amount\": \"100.00\", \"currency\": \"USD\", " ++
  "\"payment_method\": \"card\", \"payment_status\": \"pending\", \"country_code\": \"US\", " ++
  "\"created_at\": 3600000000, \"updated_at\": 3661000000\x7d\x7d"

/-- The text of the removal of payment 2. -/
def deletedText : String :=
  "\x7b\"op\": \"d\", \"source\": \x7b\"lsn\": 11\x7d, \"before\": \x7b\"payment_id\": 2\x7d\x7d"

/-- `get_json_object` on these two texts. -/
def sampleTextSpark : SparkFunctions String Int where
  getJsonObject text path :=
    ([(createdText, envelope "c" 1 10 "pending"), (deletedText, envelope "d" 2 11 "")].lookup
      text).bind fun document => document.lookup path
  castLong := sampleSpark.castLong
  castDecimal := sampleSpark.castDecimal
  castDouble := sampleSpark.castDouble
  divide := sampleSpark.divide
  fromUnixtime := sampleSpark.fromUnixtime
  castTimestamp := sampleSpark.castTimestamp
  upper := sampleSpark.upper
  lower := sampleSpark.lower

/-- Neither text has a float, a container in a hashed field or a hashed field. -/
def samplePython : Python := ⟨fun _ => .nan, fun _ => [], fun _ => "", 1000⟩

/-- A topic of one partition with the insert and the removal. -/
def sampleTopic : Topic where
  partitions := 1
  log p := if p = 0 then [⟨some "1", some createdText, 0⟩, ⟨some "2", some deletedText, 1⟩] else []

def sampleSource : List (SourceEvent String) :=
  [⟨.insert, 1, 10, createdText⟩, ⟨.delete, 2, 11, deletedText⟩]

/-- Both records are delivered, the bronze checkpoint is lost, and the first record comes
again before the second one does. -/
def sampleActions : List Action :=
  [.bronze (.publish 0), .bronze (.publish 0), .bronze (.microBatch fun _ => 2), .silver 2 1 1,
   .bronze .loseCheckpoint, .bronze (.microBatch fun _ => 1), .silver 1 2 2,
   .bronze (.microBatch fun _ => 2), .silver 1 3 3]

theorem sampleRun :
    recordsOf samplePython sampleTopic 0 =
        [⟨0, 0, some createdText⟩, ⟨0, 1, some deletedText⟩] ∧
      Machine.Along (Delivery.step samplePython sampleTextSpark sampleTopic)
        (Contiguous samplePython sampleTopic) .initial sampleActions ∧
      (∀ p < sampleTopic.partitions, (sampleTopic.log p).length ≤
        (Machine.run (Delivery.step samplePython sampleTextSpark sampleTopic) .initial
          sampleActions).ingestion.start p) ∧
      (Machine.run (Delivery.step samplePython sampleTextSpark sampleTopic) .initial
        sampleActions).ingestion.checkpoint ≠ none ∧
      (Machine.run (Delivery.step samplePython sampleTextSpark sampleTopic) .initial
          sampleActions).applied =
        (Machine.run (Delivery.step samplePython sampleTextSpark sampleTopic) .initial
          sampleActions).ingestion.table.length := by
  decide +kernel

theorem recordsOf_sampleTopic (p : ℕ) : recordsOf samplePython sampleTopic p =
    if p = 0 then [⟨0, 0, some createdText⟩, ⟨0, 1, some deletedText⟩] else [] := by
  by_cases here : p = 0
  · rw [here]
    exact sampleRun.1
  · have quiet : sampleTopic.log p = [] := if_neg here
    rw [recordsOf, quiet, if_neg here]
    rfl

theorem carries_sample :
    Carries samplePython sampleTextSpark sampleTopic (fun _ => 0) sampleSource where
  partition_lt _ := Nat.one_pos
  feeds p := by
    rw [recordsOf_sampleTopic]
    by_cases here : p = 0
    · subst here
      exact .event rfl (by decide +kernel) (.event rfl (by decide +kernel) .done)
    · have none_here : (sampleSource.filter fun e => (fun _ => 0) e.payment = p) = [] := by
        simp [Ne.symm here]
      rw [none_here, if_neg here]
      exact .done
  lsns := by decide

theorem silver_converges_sample :
    (rowsOf (Machine.run (Delivery.step samplePython sampleTextSpark sampleTopic) .initial
      sampleActions).tables.silver 1).map SilverRow.ignoringIngestedAt =
        [(changeOf sampleTextSpark 0 (some createdText)).toSilverRow] :=
  ((silver_converges carries_sample sampleRun.2.1
    ⟨sampleRun.2.2.1, sampleRun.2.2.2.1, sampleRun.2.2.2.2⟩).2.1 1).trans (by decide +kernel)

end PaymentsPlatform.Lakehouse
