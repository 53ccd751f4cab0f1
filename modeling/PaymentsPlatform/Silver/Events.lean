import PaymentsPlatform.Silver.Keyed

/-!
# Events of one payment

A batch decides the cell of a payment by one event. Seen from the payment, the batch
is the list `eventsAt` of its own events that carry an LSN, and the event that counts
is a newest one of them (`changeAt_mem`, `le_changeAt`), or the last one when the
batch is in LSN order (`changeAt_eq_getLast?`).

`returns_iff` says when a call returns: the rejects reach the dead-letter table and the
upserts pass the rules.
-/

namespace PaymentsPlatform.Silver

variable {Value Double : Type}

section Definitions

variable (sp : SparkFunctions Value Double)

/-- The payment an envelope is about. -/
def paymentOf (value : Option Value) : Option Int := (changeOf sp 0 value).paymentId

/-- The sequence token of an envelope. -/
def lsnOf (value : Option Value) : Option Int := (changeOf sp 0 value).sourceLsn

/-- A valid CDC event: one of the four operations, an identity, an LSN, and columns
that pass the rules when it is an upsert. -/
structure ValidEvent (v : Value) : Prop where
  op_mem : ∃ op ∈ cdcOps, opOf sp (some v) = some op
  identified : ∃ k, paymentOf sp (some v) = some k
  sequenced : ∃ l, lsnOf sp (some v) = some l
  quality : opOf sp (some v) ≠ some cdcDeleteOp →
    validateUpserts [changeOf sp 0 (some v)] = .ok ()

instance (v : Value) : Decidable (ValidEvent sp v) :=
  decidable_of_iff
    ((∃ op ∈ cdcOps, opOf sp (some v) = some op) ∧ (paymentOf sp (some v)).isSome ∧
      (lsnOf sp (some v)).isSome ∧ (opOf sp (some v) ≠ some cdcDeleteOp →
        validateUpserts [changeOf sp 0 (some v)] = .ok ()))
    ⟨fun ⟨ho, hk, hl, hq⟩ =>
        ⟨ho, Option.isSome_iff_exists.mp hk, Option.isSome_iff_exists.mp hl, hq⟩,
      fun h => ⟨h.op_mem, Option.isSome_iff_exists.mpr h.identified,
        Option.isSome_iff_exists.mpr h.sequenced, h.quality⟩⟩

/-- The change an envelope makes to the cell of `k`, if it is about `k`. -/
def eventAt (now : Int) (k : Int) (value : Option Value) :
    Option (Sequenced.Change Int SilverRow) :=
  if paymentOf sp value = some k then (changeOf sp now value).sequenced else none

/-- The events of `k` in a batch, in record order. -/
def eventsAt (batch : MicroBatch Value) (k : Int) : List (Sequenced.Change Int SilverRow) :=
  (processable sp batch.records).filterMap fun r => eventAt sp batch.now k r.kafkaValue

end Definitions

variable {sp : SparkFunctions Value Double} {batch : MicroBatch Value} {tables : Tables Value}
variable {k : Int} {e e' : Sequenced.Change Int SilverRow} {value : Option Value}

@[simp] theorem changeOf_sourceLsn (now : Int) (value : Option Value) :
    (changeOf sp now value).sourceLsn = lsnOf sp value := rfl

@[simp] theorem changeOf_op (now : Int) (value : Option Value) :
    (changeOf sp now value).op = opOf sp value := rfl

/-- The change an envelope makes, spelled out. -/
theorem eventAt_eq_some {now : Int} : eventAt sp now k value = some e ↔
    paymentOf sp value = some k ∧ lsnOf sp value = some e.token ∧
      e.value = if opOf sp value = some cdcDeleteOp then none
        else some (changeOf sp now value).toSilverRow := by
  rw [eventAt, Change.sequenced, changeOf_sourceLsn, changeOf_op]
  obtain ⟨token, written⟩ := e
  split
  · rename_i hk
    simp [hk, eq_comm]
  · rename_i hk
    simp [hk]

variable (sp k) in
/-- Without the ingestion time an event does not depend on the batch it is in. -/
theorem map_eventAt (now : Int) (value : Option Value) :
    (eventAt sp now k value).map (Sequenced.Change.map SilverRow.ignoringIngestedAt) =
      eventAt sp 0 k value := by
  unfold eventAt
  split
  · rw [Change.sequenced, Change.sequenced, changeOf_sourceLsn, changeOf_sourceLsn,
      Option.map_map]
    congr 1
    funext l
    by_cases hd : opOf sp value = some cdcDeleteOp <;>
      simp [Sequenced.Change.map, hd]
  · rfl

theorem map_ignoring_rows (cell : Sequenced.Cell Int SilverRow) :
    ((cell.map Prod.snd).toList).map SilverRow.ignoringIngestedAt =
      ((cell.map (Prod.map id SilverRow.ignoringIngestedAt)).map Prod.snd).toList := by
  cases cell <;> rfl

theorem mem_eventsAt : e ∈ eventsAt sp batch k ↔
    ∃ r ∈ processable sp batch.records, eventAt sp batch.now k r.kafkaValue = some e := by
  simp [eventsAt]

private theorem eventAt_of_winner {w : Projected} (hw : batchWinner sp batch k = some w) :
    ∃ r ∈ processable sp batch.records,
      eventAt sp batch.now k r.kafkaValue = w.toChange.sequenced ∧
        lsnOf sp r.kafkaValue = w.sourceLsn := by
  obtain ⟨r, hr, rfl, hk⟩ := winner_mem hw
  exact ⟨r, hr, if_pos hk, rfl⟩

/-- The change of a batch is one of its events. -/
theorem changeAt_mem (h : changeAt sp batch k = some e) : e ∈ eventsAt sp batch k := by
  obtain ⟨w, hw, hc⟩ := Option.bind_eq_some_iff.mp h
  obtain ⟨r, hr, hev, _⟩ := eventAt_of_winner hw
  exact mem_eventsAt.mpr ⟨r, hr, hev.trans hc⟩

/-- An event with an LSN loses its payment only to an LSN at least as high. -/
theorem winner_of_lsn {r : Record Value} {lsn : Int} (hr : r ∈ processable sp batch.records)
    (hk : paymentOf sp r.kafkaValue = some k) (hlsn : lsnOf sp r.kafkaValue = some lsn) :
    ∃ w l, batchWinner sp batch k = some w ∧ w.sourceLsn = some l ∧ lsn ≤ l := by
  obtain ⟨w, hw⟩ : ∃ w, batchWinner sp batch k = some w := winner_isSome hr hk
  have hle := le_winner hw hr hk
  rw [changeOf_sourceLsn, hlsn] at hle
  obtain ⟨l, hl, newest⟩ := Sql.coe_le_nullsLast.mp hle
  exact ⟨w, l, hw, hl, newest⟩

private theorem winner_of_event (he : e ∈ eventsAt sp batch k) :
    ∃ w l, batchWinner sp batch k = some w ∧ w.sourceLsn = some l ∧ e.token ≤ l := by
  obtain ⟨r, hr, hev⟩ := mem_eventsAt.mp he
  obtain ⟨hk, hlsn, _⟩ := eventAt_eq_some.mp hev
  exact winner_of_lsn hr hk hlsn

/-- It is a newest one. -/
theorem le_changeAt (h : changeAt sp batch k = some e) (he : e' ∈ eventsAt sp batch k) :
    e'.token ≤ e.token := by
  obtain ⟨w, l, hw, hl, newest⟩ := winner_of_event he
  rw [changeAt, hw, Option.bind_some, Change.sequenced, hl] at h
  rw [← Option.some.inj h]
  exact newest

theorem changeAt_eq_none : changeAt sp batch k = none ↔ eventsAt sp batch k = [] := by
  constructor
  · intro h
    by_contra hne
    obtain ⟨e, he⟩ := List.exists_mem_of_ne_nil _ hne
    obtain ⟨w, l, hw, hl, _⟩ := winner_of_event he
    rw [changeAt, hw, Option.bind_some, Change.sequenced, hl] at h
    cases h
  · intro h
    cases hc : changeAt sp batch k with
    | none => rfl
    | some e => simpa [h] using changeAt_mem hc

/-- In LSN order the last event counts. -/
theorem changeAt_eq_getLast?
    (increasing : (eventsAt sp batch k).Pairwise fun e₁ e₂ => e₁.token < e₂.token) :
    changeAt sp batch k = (eventsAt sp batch k).getLast? := by
  rcases List.eq_nil_or_concat' (eventsAt sp batch k) with hnil | ⟨es, e, hes⟩
  · rw [hnil, changeAt_eq_none.mpr hnil]
    rfl
  · rw [hes, List.getLast?_concat]
    cases hc : changeAt sp batch k with
    | none =>
        rw [changeAt_eq_none] at hc
        simp [hc] at hes
    | some e' =>
        have newest : e.token ≤ e'.token := le_changeAt hc (by rw [hes]; simp)
        have hmem := changeAt_mem hc
        rw [hes] at hmem increasing
        rcases List.mem_append.mp hmem with hbefore | hlast
        · exact absurd newest (not_le.mpr
            ((List.pairwise_append.mp increasing).2.2 e' hbefore e (List.mem_singleton_self e)))
        · rw [List.mem_singleton.mp hlast]

/-- Over a run without exceptions and in LSN order, every cell runs through all events
of its payment, wherever the batches are cut. -/
theorem cellOf_afterBatches_inOrder {batches : List (MicroBatch Value)}
    (keyed : Keyed tables.silver) (all : AllReturn sp tables batches)
    (increasing : ∀ batch ∈ batches,
      (eventsAt sp batch k).Pairwise fun e₁ e₂ => e₁.token < e₂.token) :
    cellOf (afterBatches sp tables batches).silver k =
      (cellOf tables.silver k).run (batches.flatMap fun batch => eventsAt sp batch k) := by
  have last : batches.filterMap (fun batch => changeAt sp batch k) =
      (batches.map fun batch => eventsAt sp batch k).filterMap List.getLast? := by
    rw [List.filterMap_map]
    exact List.filterMap_congr fun batch hb => changeAt_eq_getLast? (increasing batch hb)
  rw [cellOf_afterBatches keyed all, last, Sequenced.Cell.run_getLast?, List.flatMap_def]
  intro es hes
  obtain ⟨batch, hb, rfl⟩ := List.mem_map.mp hes
  exact increasing batch hb

/-- The changes of a batch have one row for every payment. -/
theorem batchChanges_unique (sp : SparkFunctions Value Double) (batch : MicroBatch Value)
    (k : Int) :
    (Sql.partition (fun c : Change => c.paymentId) (some k)
      (batchChanges sp batch)).length ≤ 1 := by
  rw [batchChanges, partition_buildChanges]
  exact Option.length_toList_le

/-- A call returns exactly when the rejects can be recorded and the upserts of the
change set pass: the last statement never fails. -/
theorem returns_iff : Returns sp tables batch ↔
    (∃ dlq, recordRejects sp batch tables.dlq = some dlq) ∧
      validateUpserts (upsertsOf (batchChanges sp batch)) = .ok () := by
  constructor
  · rintro ⟨tables', h⟩
    obtain ⟨rejects, valid, _⟩ := upsertToSilver_ok_iff.mp h
    exact ⟨⟨_, rejects⟩, valid⟩
  · rintro ⟨⟨dlq, rejects⟩, valid⟩
    obtain ⟨silver, merged⟩ := silverMerge_keyedBy.exec_isSome tables.silver
      (batchChanges_unique sp batch)
    exact ⟨⟨silver, dlq⟩, upsertToSilver_ok_iff.mpr ⟨rejects, valid, merged⟩⟩

/-- When every upsert passes the rules on its own, the rejects decide. -/
theorem returns_of_rejects {dlq : List (DlqRow Value)}
    (rejects : recordRejects sp batch tables.dlq = some dlq)
    (quality : ∀ r ∈ processable sp batch.records, opOf sp r.kafkaValue ≠ some cdcDeleteOp →
      passesQuality (changeOf sp batch.now r.kafkaValue).toSilverRow = true) :
    Returns sp tables batch := by
  refine returns_iff.mpr ⟨⟨dlq, rejects⟩, ?_⟩
  rw [validateUpserts_eq_ok]
  constructor
  · intro c hc
    obtain ⟨hmem, upsert⟩ := mem_upsertsOf.mp hc
    obtain ⟨w, hw, rfl⟩ := mem_buildChanges.mp hmem
    obtain ⟨r, hr, rfl, _⟩ := winner_mem hw
    exact quality r hr (ne_delete_of_upsert upsert)
  · apply duplicatePaymentIds_eq_zero
    intro k
    exact ((List.Sublist.filter _ List.filter_sublist).length_le).trans
      (batchChanges_unique sp batch k)

/-- A batch without rejects writes no dead-letter row. -/
theorem recordRejects_of_nil (hmal : malformed sp batch.records = [])
    (hunx : unexpected sp batch.records = []) (dlq : List (DlqRow Value)) :
    recordRejects sp batch dlq = some dlq := by
  simp [recordRejects, hmal, hunx, dlqRows]

/-- A dead-letter statement whose rows have distinct coordinates always runs. -/
theorem exec_dlqMerge_isSome (dlq : List (DlqRow Value)) {rows : List (DlqRow Value)}
    (distinct : (rows.map DlqRow.key).Nodup) : ∃ dlq', dlqMerge.exec dlq rows = some dlq' :=
  dlqMerge_keyedBy.exec_isSome dlq fun key => by
    rw [Sql.partition_some]
    exact Sql.nodup_map_iff.mp distinct key

/-- Rejects with distinct Kafka coordinates always reach the dead-letter table. -/
theorem recordRejects_isSome (sp : SparkFunctions Value Double) (batch : MicroBatch Value)
    (distinct : (batch.records.map Record.key).Nodup)
    (dlq : List (DlqRow Value)) : ∃ dlq', recordRejects sp batch dlq = some dlq' := by
  have unique : ∀ (rows : List (Record Value)) (reason : String), rows.Sublist batch.records →
      ((dlqRows rows batch.batchId reason batch.now).map DlqRow.key).Nodup := by
    intro rows reason hsub
    rw [dlqRows_keys]
    exact distinct.sublist (hsub.map _)
  have sub_of : ∀ p q : Record Value → Bool,
      ((batch.records.filter p).filter q).Sublist batch.records :=
    fun p q => List.filter_sublist.trans List.filter_sublist
  obtain ⟨dlq₁, h₁⟩ := exec_dlqMerge_isSome dlq (unique (malformed sp batch.records) "null_op"
    (sub_of _ _))
  obtain ⟨dlq₂, h₂⟩ := exec_dlqMerge_isSome dlq₁ (unique (unexpected sp batch.records)
    "unexpected_op" (List.filter_sublist.trans (sub_of _ _)))
  exact ⟨dlq₂, by rw [recordRejects, h₁, Option.bind_some, h₂]⟩

end PaymentsPlatform.Silver
