import PaymentsPlatform.Silver.Envelope
import PaymentsPlatform.Silver.Events

/-!
# What becomes of every record

After a call that returns, a record is `Accounted` for when its coordinates are in
the dead-letter table, or when it is an event and the rows of its payment are the
outcome of an event at least as new. `accounted_iff` says exactly which batches leave
every record accounted for, from any table: what falls through is an event without an
identity or an LSN, and an event of a payment whose row has no LSN.
-/

namespace PaymentsPlatform.Silver

variable {Value Double : Type}

section Definitions

variable (sp : SparkFunctions Value Double)

/-- The operation is one of the four. -/
def IsEvent (r : Record Value) : Prop := ∃ op ∈ cdcOps, opOf sp r.kafkaValue = some op

/-- A record with a value that is no event. -/
def IsReject (r : Record Value) : Prop := r.kafkaValue ≠ none ∧ ¬IsEvent sp r

/-- The dead-letter table has a row under these coordinates. -/
def DeadLettered (dlq : List (DlqRow Value)) (key : Int × Int) : Prop := ∃ d ∈ dlq, d.key = key

/-- The rows of `k` are the outcome of events no older than `lsn`: they were there
before or project an event of the batch, and carry an LSN at least as high; or there
are none, and the batch holds a delete of `k` with an LSN at least as high. -/
def Settled (before after : List SilverRow) (batch : MicroBatch Value) (k lsn : Int) : Prop :=
  (rowsOf after k ≠ [] ∧ ∀ t ∈ rowsOf after k,
    (t ∈ before ∨ ∃ r ∈ batch.records, (changeOf sp batch.now r.kafkaValue).toSilverRow = t) ∧
      ∃ l, t.sourceLsn = some l ∧ lsn ≤ l) ∨
  (rowsOf after k = [] ∧ ∃ r ∈ batch.records, opOf sp r.kafkaValue = some cdcDeleteOp ∧
    paymentOf sp r.kafkaValue = some k ∧ ∃ l, lsnOf sp r.kafkaValue = some l ∧ lsn ≤ l)

/-- The record left a trace in the tables. -/
def Accounted (tables tables' : Tables Value) (batch : MicroBatch Value) (r : Record Value) :
    Prop :=
  DeadLettered tables'.dlq r.key ∨
    IsEvent sp r ∧ ∃ k lsn, paymentOf sp r.kafkaValue = some k ∧ lsnOf sp r.kafkaValue = some lsn ∧
      Settled sp tables.silver tables'.silver batch k lsn

/-- The event can be ordered against silver: it has an identity and an LSN, and so
have the rows of its payment. -/
def Orderable (silver : List SilverRow) (r : Record Value) : Prop :=
  ∃ k lsn, paymentOf sp r.kafkaValue = some k ∧ lsnOf sp r.kafkaValue = some lsn ∧
    ∀ t ∈ rowsOf silver k, t.sourceLsn ≠ none

/-- The coordinates are dead-lettered already, or a reject of the batch has them. -/
def SharesReject (tables : Tables Value) (batch : MicroBatch Value) (r : Record Value) : Prop :=
  DeadLettered tables.dlq r.key ∨ ∃ r' ∈ batch.records, IsReject sp r' ∧ r'.key = r.key

end Definitions

variable {sp : SparkFunctions Value Double} {batch : MicroBatch Value}
variable {tables tables' : Tables Value} {r : Record Value} {k lsn : Int}

private theorem deadLettered_exec {dlq dlq' : List (DlqRow Value)} {records : List (Record Value)}
    {reason : String} {key : Int × Int}
    (h : dlqMerge.exec dlq (dlqRows records batch.batchId reason batch.now) = some dlq') :
    DeadLettered dlq' key ↔ DeadLettered dlq key ∨ ∃ r ∈ records, r.key = key := by
  have keys := dlqMerge_keyedBy.mem_keys_exec (k := key) dlqMerge_upserts h
  simpa [DeadLettered, dlqRows, DlqRow.key, Record.key] using keys

/-- The dead-letter table gains exactly the coordinates of the rejects. -/
theorem deadLettered_recordRejects {dlq dlq' : List (DlqRow Value)}
    (h : recordRejects sp batch dlq = some dlq') (key : Int × Int) : DeadLettered dlq' key ↔
      DeadLettered dlq key ∨ ∃ r ∈ batch.records, IsReject sp r ∧ r.key = key := by
  obtain ⟨dlq₁, h₁, h₂⟩ := Option.bind_eq_some_iff.mp h
  rw [deadLettered_exec h₂, deadLettered_exec h₁, or_assoc]
  refine or_congr_right ?_
  constructor
  · rintro (⟨r, hr, hkey⟩ | ⟨r, hr, hkey⟩)
    · obtain ⟨hmem, ⟨v, hv⟩, hop⟩ := mem_malformed.mp hr
      refine ⟨r, hmem, ⟨by simp [hv], ?_⟩, hkey⟩
      rintro ⟨op, _, hop'⟩
      rw [hop] at hop'
      cases hop'
    · obtain ⟨hmem, op, hop, hout⟩ := mem_unexpected.mp hr
      refine ⟨r, hmem, ⟨?_, ?_⟩, hkey⟩
      · intro hnull
        rw [hnull] at hop
        cases hop
      · rintro ⟨op', hin, hop'⟩
        rw [hop] at hop'
        exact hout (Option.some.inj hop' ▸ hin)
  · rintro ⟨r, hmem, ⟨hvalue, hevent⟩, hkey⟩
    obtain ⟨v, hv⟩ := Option.ne_none_iff_exists'.mp hvalue
    cases hop : opOf sp r.kafkaValue with
    | none => exact .inl ⟨r, mem_malformed.mpr ⟨hmem, ⟨v, hv⟩, hop⟩, hkey⟩
    | some op =>
        exact .inr ⟨r, mem_unexpected.mpr ⟨hmem, op, hop, fun hin => hevent ⟨op, hin, hop⟩⟩, hkey⟩

theorem deadLettered_afterBatch (h : (upsertToSilver sp batch).run tables = .ok () tables')
    (key : Int × Int) : DeadLettered tables'.dlq key ↔
      DeadLettered tables.dlq key ∨ ∃ r ∈ batch.records, IsReject sp r ∧ r.key = key :=
  deadLettered_recordRejects (upsertToSilver_ok_iff.mp h).1 key

/-- A row of a payment survives a call unless something newer than it is known. -/
theorem mem_rowsOf_of_null (h : (upsertToSilver sp batch).run tables = .ok () tables')
    {t : SilverRow} (ht : t ∈ rowsOf tables.silver k) (hnull : t.sourceLsn = none) :
    t ∈ rowsOf tables'.silver k := by
  rw [rowsOf_afterBatch h]
  cases batchWinner sp batch k with
  | none => exact ht
  | some w =>
      have kept : silverMerge.applyMatched t w.toChange = some t := by
        rw [silverMerge_applyMatched, if_neg]
        simp [newer, Sql.lt, hnull]
      exact List.mem_append_left _ (List.mem_filterMap.mpr ⟨t, ht, kept⟩)

/-- What a matched row with an LSN becomes: the winner's, if it was older and the
winner is an upsert; it is gone if the winner is a delete; otherwise it stays. -/
private theorem applyMatched_cases {t t' : SilverRow} {w : Projected} {held l : Int}
    (hw : batchWinner sp batch k = some w) (hl : w.sourceLsn = some l)
    (ht : t.paymentId = some k) (hheld : t.sourceLsn = some held)
    (h : silverMerge.applyMatched t w.toChange = some t') :
    (t' = t ∧ l ≤ held) ∨ t' = w.toSilverRow := by
  obtain ⟨_, _, _, hk⟩ := winner_mem hw
  have isNewer : (newer t w.toChange).holds = true ↔ held < l := by
    rw [newer_holds hheld, hl]
    simp
  rcases winner_op hw with delete | upsert
  · rw [applyMatched_delete delete] at h
    obtain ⟨older, ⟨⟩⟩ := Option.ite_none_left_eq_some.mp h
    exact .inl ⟨rfl, not_lt.mp (mt isNewer.mpr older)⟩
  · rw [applyMatched_upsert upsert (ht.trans hk.symm)] at h
    split at h
    · exact .inr (Option.some.inj h).symm
    · rename_i older
      exact .inl ⟨(Option.some.inj h).symm, not_lt.mp (mt isNewer.mpr older)⟩

/-- An upsert that wins its payment leaves a row of it. -/
private theorem rowsOf_ne_nil_of_upsert (h : (upsertToSilver sp batch).run tables = .ok () tables')
    {w : Projected} (hw : batchWinner sp batch k = some w)
    (upsert : ∃ op ∈ cdcUpsertOps, w.op = some op) : rowsOf tables'.silver k ≠ [] := by
  obtain ⟨_, _, _, hk⟩ := winner_mem hw
  rw [rowsOf_afterBatch h, hw]
  cases hrows : rowsOf tables.silver k with
  | nil => simp [Sql.Merge.mergedRows, insertFor_upsert upsert]
  | cons t rest =>
      have ht : t.paymentId = some k := (mem_rowsOf.mp (hrows ▸ List.mem_cons_self)).2
      have kept : ∃ t', silverMerge.applyMatched t w.toChange = some t' := by
        rw [applyMatched_upsert upsert (ht.trans hk.symm)]
        split <;> exact ⟨_, rfl⟩
      obtain ⟨t', ht'⟩ := kept
      simp [Sql.Merge.mergedRows, ht']

/-- A row of the payment after the call was there before, and is not behind the winner,
or is the winner's. -/
private theorem mem_rowsOf_afterBatch (h : (upsertToSilver sp batch).run tables = .ok () tables')
    {w : Projected} {l : Int} (hw : batchWinner sp batch k = some w) (hl : w.sourceLsn = some l)
    (known : ∀ t ∈ rowsOf tables.silver k, t.sourceLsn ≠ none) {t' : SilverRow}
    (ht' : t' ∈ rowsOf tables'.silver k) :
    (t' ∈ tables.silver ∧ ∃ held, t'.sourceLsn = some held ∧ l ≤ held) ∨
      t' = w.toSilverRow := by
  rw [rowsOf_afterBatch h, hw] at ht'
  rcases List.mem_append.mp ht' with kept | inserted
  · obtain ⟨t, ht, happ⟩ := List.mem_filterMap.mp kept
    obtain ⟨held, hheld⟩ := Option.ne_none_iff_exists'.mp (known t ht)
    obtain ⟨hbefore, hid⟩ := mem_rowsOf.mp ht
    exact (applyMatched_cases hw hl hid hheld happ).imp_left
      fun ⟨same, hnew⟩ => same ▸ ⟨hbefore, held, hheld, hnew⟩
  · split at inserted
    · have hins := Option.mem_toList.mp inserted
      rcases winner_op hw with delete | upsert
      · rw [insertFor_delete delete] at hins
        cases hins
      · rw [insertFor_upsert upsert] at hins
        exact .inr (Option.some.inj hins).symm
    · cases inserted

/-- An event that can be ordered is settled by the winner of its payment. -/
theorem settled_of_orderable (h : (upsertToSilver sp batch).run tables = .ok () tables')
    (hr : r ∈ batch.records) (event : IsEvent sp r) (hk : paymentOf sp r.kafkaValue = some k)
    (hlsn : lsnOf sp r.kafkaValue = some lsn)
    (known : ∀ t ∈ rowsOf tables.silver k, t.sourceLsn ≠ none) :
    Settled sp tables.silver tables'.silver batch k lsn := by
  obtain ⟨w, l, hw, hl, newest⟩ :=
    winner_of_lsn (mem_processable.mpr ⟨hr, event⟩) hk hlsn
  obtain ⟨r', hr', hproj, hwk⟩ := winner_mem hw
  have hmem : r' ∈ batch.records := (mem_processable.mp hr').1
  have projects : ∃ r ∈ batch.records,
      (changeOf sp batch.now r.kafkaValue).toSilverRow = w.toSilverRow :=
    ⟨r', hmem, by rw [← hproj]; rfl⟩
  by_cases gone : rowsOf tables'.silver k = []
  · have delete : w.op = some cdcDeleteOp :=
      (winner_op hw).resolve_right fun upsert => rowsOf_ne_nil_of_upsert h hw upsert gone
    subst hproj
    exact .inr ⟨gone, r', hmem, delete, hwk, l, hl, newest⟩
  · refine .inl ⟨gone, fun t' ht' => ?_⟩
    rcases mem_rowsOf_afterBatch h hw hl known ht' with ⟨hold, held, hheld, hnew⟩ | rfl
    · exact ⟨.inl hold, held, hheld, newest.trans hnew⟩
    · exact ⟨.inr projects, l, hl, newest⟩

/-- After a call that returns every record is accounted for exactly when every event
shares its coordinates with a dead-lettered record or can be ordered. -/
theorem accounted_iff (h : (upsertToSilver sp batch).run tables = .ok () tables') :
    (∀ r ∈ batch.records, r.kafkaValue ≠ none → Accounted sp tables tables' batch r) ↔
      ∀ r ∈ batch.records, IsEvent sp r →
        SharesReject sp tables batch r ∨ Orderable sp tables.silver r := by
  constructor
  · intro accounted r hr event
    have hvalue : r.kafkaValue ≠ none := by
      obtain ⟨op, _, hop⟩ := event
      intro hnull
      rw [hnull] at hop
      cases hop
    rcases accounted r hr hvalue with dead | ⟨_, k, lsn, hk, hlsn, settled⟩
    · exact .inl ((deadLettered_afterBatch h r.key).mp dead)
    · refine .inr ⟨k, lsn, hk, hlsn, fun t ht hnull => ?_⟩
      have hafter := mem_rowsOf_of_null h ht hnull
      rcases settled with ⟨_, rows⟩ | ⟨gone, _⟩
      · obtain ⟨_, l, hl, _⟩ := rows t hafter
        rw [hnull] at hl
        cases hl
      · rw [gone] at hafter
        cases hafter
  · intro orderable r hr hvalue
    by_cases event : IsEvent sp r
    · rcases orderable r hr event with shares | ⟨k, lsn, hk, hlsn, known⟩
      · exact .inl ((deadLettered_afterBatch h r.key).mpr shares)
      · exact .inr ⟨event, k, lsn, hk, hlsn, settled_of_orderable h hr event hk hlsn known⟩
    · exact .inl ((deadLettered_afterBatch h r.key).mpr (.inr ⟨r, hr, ⟨hvalue, event⟩, rfl⟩))

/-- A silver table with a row of payment 1, at LSN 10. -/
def liveTables : Tables Envelope :=
  afterBatch sampleSpark ⟨[], []⟩ (sampleBatch 1 [recordAt 0 (envelope "c" 1 10 "pending")])

/-- A delete of payment 1 with an LSN, alone in its batch. -/
def sequencedDelete : MicroBatch Envelope :=
  sampleBatch 2 [recordAt 1 (envelope "d" 1 20 "")]

theorem accounted_iff_sample :
    Returns sampleSpark liveTables sequencedDelete ∧
      ∀ r ∈ sequencedDelete.records, r.kafkaValue ≠ none →
        Accounted sampleSpark liveTables (afterBatch sampleSpark liveTables sequencedDelete)
          sequencedDelete r := by
  have returns : Returns sampleSpark liveTables sequencedDelete :=
    returns_of_rejects (recordRejects_of_nil (by decide) (by decide) _) (by decide)
  refine ⟨returns, (accounted_iff returns.run_eq).mpr fun r hr _ => .inr ⟨1, 20, ?_⟩⟩
  rw [List.mem_singleton.mp hr]
  decide

/-- A delete of payment 1 without an LSN, alone in its batch. -/
def unsequencedDelete : MicroBatch Envelope :=
  sampleBatch 2 [recordAt 1 [("$.op", "d"), ("$.before.payment_id", "1")]]

/-- The call returns, the row is still there, and nothing tells of the delete. -/
theorem unsequencedDelete_lost :
    Returns sampleSpark liveTables unsequencedDelete ∧
      rowsOf (afterBatch sampleSpark liveTables unsequencedDelete).silver 1 =
        rowsOf liveTables.silver 1 ∧
      rowsOf liveTables.silver 1 ≠ [] ∧
      ¬∀ r ∈ unsequencedDelete.records, r.kafkaValue ≠ none →
        Accounted sampleSpark liveTables (afterBatch sampleSpark liveTables unsequencedDelete)
          unsequencedDelete r := by
  refine ⟨?_, by decide, by decide, fun accounted => ?_⟩
  · exact returns_of_rejects (recordRejects_of_nil (by decide) (by decide) _) (by decide)
  · rcases accounted _ List.mem_cons_self (by decide) with ⟨d, hd, _⟩ | ⟨_, _, _, _, hlsn, _⟩
    · have empty : (afterBatch sampleSpark liveTables unsequencedDelete).dlq = [] := by decide
      rw [empty] at hd
      cases hd
    · have unknown : lsnOf sampleSpark
          (some [("$.op", "d"), ("$.before.payment_id", "1")]) = none := by decide
      cases unknown.symm.trans hlsn

end PaymentsPlatform.Silver
