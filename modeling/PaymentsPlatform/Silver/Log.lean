import PaymentsPlatform.Silver.Events

/-!
# Logs in LSN order

A log is `InOrder` when its events are valid, the LSNs of a payment grow along it,
and so do the offsets of a partition; tombstones, records without an operation and
records with an unknown one may stand anywhere. On such a log no call raises, and
the state after it does not depend on where the micro-batches are cut: apart from
the ingestion times, every cell runs through the payment's events as the log lists
them (`InOrder.cellOf_afterBatches`).
-/

namespace PaymentsPlatform.Silver

variable {Value Double : Type}

/-- A log of valid events in LSN order, possibly with other records in between. -/
structure InOrder (sp : SparkFunctions Value Double) (log : List (Record Value)) : Prop where
  valid : ∀ r ∈ processable sp log, ∃ v ∈ r.kafkaValue, ValidEvent sp v
  sequenced : (processable sp log).Pairwise fun r₁ r₂ =>
    paymentOf sp r₁.kafkaValue = paymentOf sp r₂.kafkaValue →
      (Sql.lt (lsnOf sp r₁.kafkaValue) (lsnOf sp r₂.kafkaValue)).holds = true
  offsets : log.Pairwise fun r₁ r₂ =>
    r₁.kafkaPartition = r₂.kafkaPartition → r₁.kafkaOffset < r₂.kafkaOffset

instance (sp : SparkFunctions Value Double) (log : List (Record Value)) :
    Decidable (InOrder sp log) :=
  decidable_of_iff
    ((∀ r ∈ processable sp log, ∃ v ∈ r.kafkaValue, ValidEvent sp v) ∧
      ((processable sp log).Pairwise fun r₁ r₂ =>
        paymentOf sp r₁.kafkaValue = paymentOf sp r₂.kafkaValue →
          (Sql.lt (lsnOf sp r₁.kafkaValue) (lsnOf sp r₂.kafkaValue)).holds = true) ∧
      log.Pairwise fun r₁ r₂ =>
        r₁.kafkaPartition = r₂.kafkaPartition → r₁.kafkaOffset < r₂.kafkaOffset)
    ⟨fun ⟨hv, hs, ho⟩ => ⟨hv, hs, ho⟩, fun h => ⟨h.valid, h.sequenced, h.offsets⟩⟩

/-- The events of `k` in a log, without ingestion times. -/
def loggedAt (sp : SparkFunctions Value Double) (k : Int) (log : List (Record Value)) :
    List (Sequenced.Change Int SilverRow) :=
  (processable sp log).filterMap fun r => eventAt sp 0 k r.kafkaValue

variable {sp : SparkFunctions Value Double} {batch : MicroBatch Value} {tables : Tables Value}
variable {batches : List (MicroBatch Value)} {log : List (Record Value)} {k : Int}

theorem processable_append (xs ys : List (Record Value)) :
    processable sp (xs ++ ys) = processable sp xs ++ processable sp ys := by
  simp [processable, knownOps]

theorem loggedAt_append (xs ys : List (Record Value)) :
    loggedAt sp k (xs ++ ys) = loggedAt sp k xs ++ loggedAt sp k ys := by
  simp [loggedAt, processable_append]

theorem loggedAt_flatMap (batches : List (MicroBatch Value)) :
    loggedAt sp k (batches.flatMap MicroBatch.records) =
      (batches.map fun batch => loggedAt sp k batch.records).flatten := by
  induction batches with
  | nil => rfl
  | cons batch batches ih =>
      rw [List.flatMap_cons, loggedAt_append, ih, List.map_cons, List.flatten_cons]

/-- Without the ingestion times the events of a batch are those of its records. -/
theorem map_eventsAt (batch : MicroBatch Value) (k : Int) :
    (eventsAt sp batch k).map (Sequenced.Change.map SilverRow.ignoringIngestedAt) =
      loggedAt sp k batch.records := by
  rw [eventsAt, loggedAt, List.map_filterMap]
  exact List.filterMap_congr fun r _ => map_eventAt sp k batch.now r.kafkaValue

/-- Without the ingestion times the events of a payment do not depend on the cut. -/
theorem map_flatMap_eventsAt (batches : List (MicroBatch Value)) :
    (batches.flatMap fun batch => eventsAt sp batch k).map
        (Sequenced.Change.map SilverRow.ignoringIngestedAt) =
      loggedAt sp k (batches.flatMap MicroBatch.records) := by
  rw [List.map_flatMap, loggedAt_flatMap, List.flatMap_def]
  simp only [map_eventsAt]

namespace InOrder

theorem sublist {part : List (Record Value)} (h : InOrder sp log) (hsub : part.Sublist log) :
    InOrder sp part where
  valid r hr := h.valid r ((hsub.filter _).filter _ |>.filter _ |>.subset hr)
  sequenced := h.sequenced.sublist (((hsub.filter _).filter _).filter _)
  offsets := h.offsets.sublist hsub

theorem increasing (h : InOrder sp log) (k : Int) :
    (loggedAt sp k log).Pairwise fun e₁ e₂ => e₁.token < e₂.token := by
  rw [loggedAt, List.pairwise_filterMap]
  refine h.sequenced.imp ?_
  intro r₁ r₂ hlt e₁ h₁ e₂ h₂
  obtain ⟨hk₁, hl₁, _⟩ := eventAt_eq_some.mp h₁
  obtain ⟨hk₂, hl₂, _⟩ := eventAt_eq_some.mp h₂
  simpa [Sql.lt, hl₁, hl₂] using hlt (hk₁.trans hk₂.symm)

/-- On a log in order a call returns, from any tables. -/
theorem returns (h : InOrder sp batch.records) (tables : Tables Value) :
    Returns sp tables batch := by
  have distinct : (batch.records.map Record.key).Nodup := by
    rw [List.Nodup, List.pairwise_map]
    refine h.offsets.imp fun hlt same => ?_
    obtain ⟨hp, ho⟩ := Prod.mk.inj same
    have := hlt hp
    omega
  obtain ⟨dlq, rejects⟩ := recordRejects_isSome sp batch distinct tables.dlq
  refine returns_of_rejects rejects fun r hr upsert => ?_
  obtain ⟨v, hv, valid⟩ := h.valid r hr
  rw [hv] at upsert ⊢
  exact validateUpserts_singleton.mp (valid.quality upsert)

private theorem of_batch (h : InOrder sp (batches.flatMap MicroBatch.records)) :
    ∀ batch ∈ batches, InOrder sp batch.records :=
  fun _ hb => h.sublist (List.sublist_flatten_of_mem (List.mem_map_of_mem hb))

/-- No call raises on a log in order, wherever it is cut. -/
theorem allReturn (h : InOrder sp (batches.flatMap MicroBatch.records)) (tables : Tables Value) :
    AllReturn sp tables batches :=
  Machine.along_of_forall fun batch hb s => (h.of_batch batch hb).returns s

theorem increasing_eventsAt (h : InOrder sp (batches.flatMap MicroBatch.records)) (k : Int) :
    (batches.flatMap fun batch => eventsAt sp batch k).Pairwise
      fun e₁ e₂ => e₁.token < e₂.token := by
  have logged := h.increasing k
  rw [← map_flatMap_eventsAt, List.pairwise_map] at logged
  exact logged

/-- The cells after a log in order, with the ingestion times. -/
theorem cellOf_afterBatches_events (h : InOrder sp (batches.flatMap MicroBatch.records))
    (keyed : Keyed tables.silver) (k : Int) :
    cellOf (afterBatches sp tables batches).silver k =
      (cellOf tables.silver k).run (batches.flatMap fun batch => eventsAt sp batch k) := by
  refine cellOf_afterBatches_inOrder keyed (h.allReturn tables) fun batch hb => ?_
  exact (h.increasing_eventsAt k).sublist
    (List.sublist_flatten_of_mem
      (List.mem_map_of_mem (f := fun batch => eventsAt sp batch k) hb))

/-- The cells after a log in order, without the ingestion times: they depend on the
log alone, not on the cut. -/
theorem cellOf_afterBatches (h : InOrder sp (batches.flatMap MicroBatch.records))
    (keyed : Keyed tables.silver) (k : Int) :
    (cellOf (afterBatches sp tables batches).silver k).map
        (Prod.map id SilverRow.ignoringIngestedAt) =
      Sequenced.Cell.run
        ((cellOf tables.silver k).map (Prod.map id SilverRow.ignoringIngestedAt))
        (loggedAt sp k (batches.flatMap MicroBatch.records)) := by
  rw [h.cellOf_afterBatches_events keyed, Sequenced.Cell.map_run, map_flatMap_eventsAt]

end InOrder

end PaymentsPlatform.Silver
