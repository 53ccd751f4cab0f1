import PaymentsPlatform.Silver.Envelope
import PaymentsPlatform.Silver.Log

/-!
# The source table and its change feed

The abstract side is the `payments` table of the source: a history of committed
changes, and a map from live payments to their last change. A `Feed` is what Kafka
holds of such a history: the envelopes in order, with tombstones and rejects in
between. `silver_eq_source` is the simulation over any cut of the feed.
-/

namespace PaymentsPlatform.Silver

/-- What happens to a row of the source; a snapshot reads it without changing it. -/
inductive SourceOp where
  | snapshotRead
  | insert
  | update
  | delete
  deriving DecidableEq, Repr

/-- The operation code Debezium gives it. -/
def SourceOp.code : SourceOp → String
  | .snapshotRead => "r"
  | .insert => "c"
  | .update => "u"
  | .delete => "d"

theorem SourceOp.code_mem (op : SourceOp) : op.code ∈ cdcOps := by
  cases op <;> decide

theorem SourceOp.code_eq_delete {op : SourceOp} : op.code = cdcDeleteOp ↔ op = .delete := by
  cases op <;> decide

/-- A change of the source with its place in the WAL and the envelope emitted for it. -/
structure SourceEvent (Value : Type) where
  op : SourceOp
  payment : Int
  lsn : Int
  envelope : Value

/-- The live payments, each with its last change. -/
abbrev SourceTable (Value : Type) := Int → Option (SourceEvent Value)

variable {Value Double : Type}

def SourceTable.apply (table : SourceTable Value) (e : SourceEvent Value) : SourceTable Value :=
  Function.update table e.payment (if e.op = .delete then none else some e)

/-- The table a history leads to. -/
def sourceTable (history : List (SourceEvent Value)) : SourceTable Value :=
  history.foldl SourceTable.apply fun _ => none

variable {sp : SparkFunctions Value Double}

/-- The envelope says what happened, and the row of an upsert satisfies the rules. -/
structure Emitted (sp : SparkFunctions Value Double) (e : SourceEvent Value) : Prop where
  op : opOf sp (some e.envelope) = some e.op.code
  payment : paymentOf sp (some e.envelope) = some e.payment
  lsn : lsnOf sp (some e.envelope) = some e.lsn
  quality : e.op ≠ .delete → validateUpserts [changeOf sp 0 (some e.envelope)] = .ok ()

/-- A record that is no event: a tombstone, or one without a known operation. -/
def Noise (sp : SparkFunctions Value Double) (r : Record Value) : Prop :=
  ∀ op ∈ cdcOps, opOf sp r.kafkaValue ≠ some op

/-- The records of a history, in order, with noise in between. -/
inductive Feed (sp : SparkFunctions Value Double) :
    List (SourceEvent Value) → List (Record Value) → Prop
  | done : Feed sp [] []
  | event {e : SourceEvent Value} {r : Record Value} {history : List (SourceEvent Value)}
      {records : List (Record Value)} (carries : r.kafkaValue = some e.envelope)
      (emitted : Emitted sp e) (rest : Feed sp history records) :
      Feed sp (e :: history) (r :: records)
  | noise {r : Record Value} {history : List (SourceEvent Value)}
      {records : List (Record Value)} (noise : Noise sp r) (rest : Feed sp history records) :
      Feed sp history (r :: records)

instance (sp : SparkFunctions Value Double) (e : SourceEvent Value) : Decidable (Emitted sp e) :=
  decidable_of_iff
    (opOf sp (some e.envelope) = some e.op.code ∧
      paymentOf sp (some e.envelope) = some e.payment ∧ lsnOf sp (some e.envelope) = some e.lsn ∧
      (e.op ≠ .delete → validateUpserts [changeOf sp 0 (some e.envelope)] = .ok ()))
    ⟨fun ⟨ho, hk, hl, hq⟩ => ⟨ho, hk, hl, hq⟩, fun h => ⟨h.op, h.payment, h.lsn, h.quality⟩⟩

instance (sp : SparkFunctions Value Double) (r : Record Value) : Decidable (Noise sp r) :=
  inferInstanceAs (Decidable (∀ op ∈ cdcOps, opOf sp r.kafkaValue ≠ some op))

/-- The silver row of an event, apart from the ingestion time. -/
def SourceEvent.row (sp : SparkFunctions Value Double) (e : SourceEvent Value) : SilverRow :=
  (changeOf sp 0 (some e.envelope)).toSilverRow

/-- The event as a change of the cell of its payment. -/
def SourceEvent.change (sp : SparkFunctions Value Double) (e : SourceEvent Value) :
    Sequenced.Change Int SilverRow :=
  { token := e.lsn, value := if e.op = .delete then none else some (e.row sp) }

/-- The change it makes to the cell of `k`. -/
def SourceEvent.changeFor (sp : SparkFunctions Value Double) (k : Int) (e : SourceEvent Value) :
    Option (Sequenced.Change Int SilverRow) :=
  if e.payment = k then some (e.change sp) else none

variable {e : SourceEvent Value} {history : List (SourceEvent Value)}
variable {records : List (Record Value)} {r : Record Value} {k : Int}

namespace Emitted

theorem valid (h : Emitted sp e) : ValidEvent sp e.envelope where
  op_mem := ⟨e.op.code, e.op.code_mem, h.op⟩
  identified := ⟨e.payment, h.payment⟩
  sequenced := ⟨e.lsn, h.lsn⟩
  quality upsert := h.quality fun delete => upsert (by rw [h.op, delete]; rfl)

theorem eventAt_eq (h : Emitted sp e) (k : Int) :
    eventAt sp 0 k (some e.envelope) = e.changeFor sp k := by
  have isDelete : opOf sp (some e.envelope) = some cdcDeleteOp ↔ e.op = .delete := by
    rw [h.op, Option.some_inj, SourceOp.code_eq_delete]
  simp only [eventAt, h.payment, Option.some_inj, Change.sequenced, changeOf_sourceLsn, h.lsn,
    changeOf_op, isDelete, Option.map_some, SourceEvent.changeFor, SourceEvent.change,
    SourceEvent.row]

end Emitted

private theorem processable_eq_filter (records : List (Record Value)) : processable sp records =
    records.filter fun r => (Sql.isIn (opOf sp r.kafkaValue) cdcOps).holds := by
  simp only [processable, knownOps, List.filter_filter]
  apply List.filter_congr
  intro r _
  cases hop : opOf sp r.kafkaValue with
  | none => simp [Sql.isIn]
  | some op => cases hv : r.kafkaValue <;> simp [hv, opOf, jsonField] at hop ⊢

theorem processable_cons_event {op : String} (hop : opOf sp r.kafkaValue = some op)
    (hmem : op ∈ cdcOps) : processable sp (r :: records) = r :: processable sp records := by
  have event : (Sql.isIn (opOf sp r.kafkaValue) cdcOps).holds = true :=
    Sql.isIn_holds.mpr ⟨op, hmem, hop⟩
  rw [processable_eq_filter, processable_eq_filter, List.filter_cons, if_pos event]

theorem processable_cons_noise (noise : Noise sp r) :
    processable sp (r :: records) = processable sp records := by
  have silent : ¬(Sql.isIn (opOf sp r.kafkaValue) cdcOps).holds = true := by
    rw [Sql.isIn_holds]
    rintro ⟨op, hmem, hop⟩
    exact noise op hmem hop
  rw [processable_eq_filter, processable_eq_filter, List.filter_cons, if_neg silent]

namespace Feed

/-- Every event of the records is one of the history. -/
theorem mem_processable (feed : Feed sp history records) (hr : r ∈ processable sp records) :
    ∃ e ∈ history, r.kafkaValue = some e.envelope ∧ Emitted sp e := by
  induction feed with
  | done => cases hr
  | @event e r' history records carries emitted rest ih =>
      rw [processable_cons_event (carries ▸ emitted.op) e.op.code_mem] at hr
      rcases List.mem_cons.mp hr with rfl | hr
      · exact ⟨e, List.mem_cons_self, carries, emitted⟩
      · obtain ⟨e', he', found⟩ := ih hr
        exact ⟨e', List.mem_cons_of_mem _ he', found⟩
  | noise noise rest ih =>
      rw [processable_cons_noise noise] at hr
      exact ih hr

theorem loggedAt_eq (feed : Feed sp history records) (k : Int) :
    loggedAt sp k records = history.filterMap (SourceEvent.changeFor sp k) := by
  induction feed with
  | done => rfl
  | @event e r history records carries emitted rest ih =>
      rw [loggedAt, processable_cons_event (carries ▸ emitted.op) e.op.code_mem,
        List.filterMap_cons, carries, emitted.eventAt_eq, List.filterMap_cons, ← ih]
      rfl
  | noise noise rest ih =>
      rw [loggedAt, processable_cons_noise noise]
      exact ih

/-- LSNs that grow along the history of every payment put the feed in order. -/
theorem inOrder (feed : Feed sp history records)
    (lsns : history.Pairwise fun e₁ e₂ => e₁.payment = e₂.payment → e₁.lsn < e₂.lsn)
    (offsets : records.Pairwise fun r₁ r₂ =>
      r₁.kafkaPartition = r₂.kafkaPartition → r₁.kafkaOffset < r₂.kafkaOffset) :
    InOrder sp records where
  valid r hr := by
    obtain ⟨e, _, hv, emitted⟩ := feed.mem_processable hr
    exact ⟨e.envelope, hv, emitted.valid⟩
  offsets := offsets
  sequenced := by
    clear offsets
    induction feed with
    | done => exact List.Pairwise.nil
    | @event e r history records carries emitted rest ih =>
        obtain ⟨older, tail⟩ := List.pairwise_cons.mp lsns
        rw [processable_cons_event (carries ▸ emitted.op) e.op.code_mem, List.pairwise_cons]
        refine ⟨fun r' hr' same => ?_, ih tail⟩
        obtain ⟨e', he', carries', emitted'⟩ := rest.mem_processable hr'
        rw [carries, carries', emitted.payment, emitted'.payment, Option.some_inj] at same
        rw [carries, carries', emitted.lsn, emitted'.lsn, Sql.lt, Sql.Truth.holds_some,
          decide_eq_true_eq]
        exact older e' he' same
    | noise noise rest ih =>
        rw [processable_cons_noise noise]
        exact ih lsns

end Feed

/-- In LSN order a cell ends with what the source ends with. -/
theorem run_history (history : List (SourceEvent Value))
    (lsns : history.Pairwise fun e₁ e₂ => e₁.payment = e₂.payment → e₁.lsn < e₂.lsn) (k : Int) :
    Sequenced.Cell.run none (history.filterMap (SourceEvent.changeFor sp k)) =
      (sourceTable history k).map fun e => (e.lsn, e.row sp) := by
  induction history using List.reverseRecOn with
  | nil => rfl
  | append_singleton history e ih =>
      obtain ⟨earlier, _, last⟩ := List.pairwise_append.mp lsns
      have ih := ih earlier
      rw [List.filterMap_append, sourceTable, List.foldl_append]
      change _ = Option.map _ ((sourceTable history).apply e k)
      by_cases hk : e.payment = k
      · have here : e.changeFor sp k = some (e.change sp) := if_pos hk
        have newest : ∀ c ∈ history.filterMap (SourceEvent.changeFor sp k),
            c.token < (e.change sp).token := by
          intro c hc
          obtain ⟨e', he', hsome⟩ := List.mem_filterMap.mp hc
          obtain ⟨hk', ⟨⟩⟩ := Option.ite_none_right_eq_some.mp hsome
          exact last e' he' e (List.mem_singleton_self e) (hk'.trans hk.symm)
        rw [List.filterMap_cons_some here, List.filterMap_nil,
          Sequenced.Cell.run_concat_of_newer (by simp) newest, ← hk, SourceTable.apply,
          Function.update_self]
        by_cases hd : e.op = .delete <;>
          simp [hd, SourceEvent.change, Sequenced.Change.outcome]
      · have elsewhere : e.changeFor sp k = none := if_neg hk
        rw [SourceTable.apply, Function.update_of_ne (Ne.symm hk), ← ih,
          List.filterMap_cons_none elsewhere, List.filterMap_nil, List.append_nil]

/-- In-order delivery of any history, over any cut: no call raises, and silver holds
one row for every live payment of the source, the projection of its last event. -/
theorem silver_eq_source {batches : List (MicroBatch Value)} {tables : Tables Value}
    (empty : tables.silver = []) (feed : Feed sp history (batches.flatMap MicroBatch.records))
    (lsns : history.Pairwise fun e₁ e₂ => e₁.payment = e₂.payment → e₁.lsn < e₂.lsn)
    (offsets : (batches.flatMap MicroBatch.records).Pairwise fun r₁ r₂ =>
      r₁.kafkaPartition = r₂.kafkaPartition → r₁.kafkaOffset < r₂.kafkaOffset) :
    AllReturn sp tables batches ∧
      (∀ r ∈ (afterBatches sp tables batches).silver, ∃ k, r.paymentId = some k) ∧
      ∀ k, (rowsOf (afterBatches sp tables batches).silver k).map SilverRow.ignoringIngestedAt =
        ((sourceTable history k).map fun e => e.row sp).toList := by
  have ordered := feed.inOrder lsns offsets
  have keyed : Keyed tables.silver := empty ▸ keyed_nil
  have final : Keyed (afterBatches sp tables batches).silver := keyed_afterBatches keyed
  refine ⟨ordered.allReturn tables, final.identified, fun k => ?_⟩
  rw [final.rowsOf_eq, map_ignoring_rows, ordered.cellOf_afterBatches keyed, feed.loggedAt_eq,
    empty, cellOf_nil, Option.map_none, run_history history lsns, Option.map_map]
  rfl

/-- A payment that the snapshot reads, and that is deleted and created again. -/
def sampleHistory : List (SourceEvent Envelope) :=
  [⟨.snapshotRead, 1, 10, envelope "r" 1 10 "pending"⟩, ⟨.delete, 1, 11, envelope "d" 1 11 ""⟩,
   ⟨.insert, 1, 12, envelope "c" 1 12 "authorized"⟩]

/-- Its feed, with a tombstone and two rejects, cut so that the delete and the creation
share a batch. -/
def sampleBatches : List (MicroBatch Envelope) :=
  [sampleBatch 1 [recordAt 0 (envelope "r" 1 10 "pending")],
   sampleBatch 2 [recordAt 1 (envelope "d" 1 11 ""), ⟨0, 2, none⟩, recordAt 3 [],
     recordAt 4 (envelope "c" 1 12 "authorized"), recordAt 5 [("$.op", "t")]]]

theorem sampleFeed : Feed sampleSpark sampleHistory (sampleBatches.flatMap MicroBatch.records) := by
  refine .event rfl (by decide) (.event rfl (by decide) ?_)
  refine .noise (by decide) (.noise (by decide) (.event rfl (by decide) ?_))
  exact .noise (by decide) .done

theorem silver_eq_source_sample :
    (rowsOf (afterBatches sampleSpark ⟨[], []⟩ sampleBatches).silver 1).map
        SilverRow.ignoringIngestedAt =
      [(changeOf sampleSpark 0 (some (envelope "c" 1 12 "authorized"))).toSilverRow] :=
  ((silver_eq_source rfl sampleFeed (by decide) (by decide)).2.2 1).trans (by decide)

end PaymentsPlatform.Silver
