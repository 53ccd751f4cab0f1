import PaymentsPlatform.Silver.Envelope
import PaymentsPlatform.Silver.Events

/-!
# Delivery in any order

A finite set of valid events, with one event for a payment and an LSN, reaches the
job in any order, any number of times and in any batches (`Delivery`). The table the
job is after (`Converges`) holds the projection of the highest-LSN event of every
payment, unless that is a delete.

A payment whose highest event is an upsert always gets there. One whose highest event
is a delete need not: the row that carried the LSN is gone, and an older upsert in a
later batch finds nothing to compare with. `converges_iff` is the exact condition.
-/

namespace PaymentsPlatform.Silver

variable {Value Double : Type}

section Definitions

variable (sp : SparkFunctions Value Double)

/-- The batches deliver the events, each at least once, and nothing else. -/
structure Delivery (events : List Value) (batches : List (MicroBatch Value)) : Prop where
  valid : ∀ v ∈ events, ValidEvent sp v
  distinct : ∀ v ∈ events, ∀ v' ∈ events, paymentOf sp (some v) = paymentOf sp (some v') →
    lsnOf sp (some v) = lsnOf sp (some v') → v = v'
  carries : ∀ batch ∈ batches, ∀ r ∈ batch.records, ∃ v ∈ events, r.kafkaValue = some v
  complete : ∀ v ∈ events, ∃ batch ∈ batches, ∃ r ∈ batch.records, r.kafkaValue = some v

/-- The highest-LSN event of a payment. -/
def highest (events : List Value) (k : Int) : Option Value :=
  Sql.latestOf (fun v => paymentOf sp (some v)) (fun v => Sql.nullsLast (lsnOf sp (some v)))
    events (some k)

/-- The row it calls for. -/
def expectedRow (events : List Value) (k : Int) : Option SilverRow :=
  (highest sp events k).bind fun v =>
    if opOf sp (some v) = some cdcDeleteOp then none
    else some (changeOf sp 0 (some v)).toSilverRow

/-- The delivery ends in the table the events call for, ingestion times ignored. -/
def Converges (tables : Tables Value) (events : List Value) (batches : List (MicroBatch Value)) :
    Prop :=
  AllReturn sp tables batches ∧
    (∀ r ∈ (afterBatches sp tables batches).silver, ∃ k, r.paymentId = some k) ∧
    ∀ k, (rowsOf (afterBatches sp tables batches).silver k).map SilverRow.ignoringIngestedAt =
      (expectedRow sp events k).toList

/-- `v` is an event of `k` in the batch, and no event of `k` in it has a higher LSN. -/
def Leads (batch : MicroBatch Value) (k : Int) (v : Value) : Prop :=
  (∃ r ∈ batch.records, r.kafkaValue = some v) ∧ paymentOf sp (some v) = some k ∧
    ∀ r ∈ batch.records, paymentOf sp r.kafkaValue = some k →
      Sql.nullsLast (lsnOf sp r.kafkaValue) ≤ Sql.nullsLast (lsnOf sp (some v))

/-- For every payment whose highest event is a delete: a batch led by an upsert of it
is followed by a batch led by a delete of it with a higher LSN. -/
def DeletesCatchUp (events : List Value) (batches : List (MicroBatch Value)) : Prop :=
  ∀ k d, highest sp events k = some d → opOf sp (some d) = some cdcDeleteOp →
    ∀ before batch after u, batches = before ++ batch :: after → Leads sp batch k u →
      opOf sp (some u) ≠ some cdcDeleteOp →
        ∃ later ∈ after, ∃ d', Leads sp later k d' ∧ opOf sp (some d') = some cdcDeleteOp ∧
          Sql.nullsLast (lsnOf sp (some u)) < Sql.nullsLast (lsnOf sp (some d'))

end Definitions

variable {sp : SparkFunctions Value Double} {events : List Value} {tables : Tables Value}
variable {batches : List (MicroBatch Value)} {batch : MicroBatch Value} {k : Int} {v : Value}
variable {e : Sequenced.Change Int SilverRow}

theorem highest_mem (h : highest sp events k = some v) :
    v ∈ events ∧ paymentOf sp (some v) = some k := Sql.latestOf_mem h

theorem le_highest (h : highest sp events k = some v) {v' : Value} (hv' : v' ∈ events)
    (hk : paymentOf sp (some v') = some k) :
    Sql.nullsLast (lsnOf sp (some v')) ≤ Sql.nullsLast (lsnOf sp (some v)) :=
  Sql.le_latestOf h hv' hk

theorem highest_eq_none :
    highest sp events k = none ↔ ∀ v ∈ events, paymentOf sp (some v) ≠ some k :=
  Sql.latestOf_eq_none

/-- The change a batch makes to the cell of `k`, without the ingestion time. -/
def leaderAt (sp : SparkFunctions Value Double) (k : Int) (batch : MicroBatch Value) :
    Option (Sequenced.Change Int SilverRow) :=
  (changeAt sp batch k).map (Sequenced.Change.map SilverRow.ignoringIngestedAt)

theorem token_of_eventAt (h : eventAt sp 0 k (some v) = some e) :
    Sql.nullsLast (lsnOf sp (some v)) = (e.token : WithBot Int) := by
  rw [(eventAt_eq_some.mp h).2.1]
  rfl

theorem value_of_eventAt (h : eventAt sp 0 k (some v) = some e) :
    e.value = none ↔ opOf sp (some v) = some cdcDeleteOp := by
  rw [(eventAt_eq_some.mp h).2.2]
  split <;> simp_all

namespace Delivery

theorem eventAt_isSome (delivery : Delivery sp events batches) (hv : v ∈ events)
    (hk : paymentOf sp (some v) = some k) : ∃ e, eventAt sp 0 k (some v) = some e := by
  obtain ⟨l, hl⟩ := (delivery.valid v hv).sequenced
  exact ⟨⟨l, _⟩, eventAt_eq_some.mpr ⟨hk, hl, rfl⟩⟩

theorem mem_processable (delivery : Delivery sp events batches) (hb : batch ∈ batches)
    {r : Record Value} (hr : r ∈ batch.records) : r ∈ processable sp batch.records := by
  obtain ⟨v, hv, hval⟩ := delivery.carries batch hb r hr
  exact Silver.mem_processable.mpr ⟨hr, hval ▸ (delivery.valid v hv).op_mem⟩

/-- No call raises. -/
theorem allReturn (delivery : Delivery sp events batches) (tables : Tables Value) :
    AllReturn sp tables batches := by
  refine Machine.along_of_forall fun batch hb s => ?_
  have known : ∀ r ∈ batch.records, ∃ v ∈ events, r.kafkaValue = some v ∧
      ∃ op ∈ cdcOps, opOf sp r.kafkaValue = some op := by
    intro r hr
    obtain ⟨v, hv, hval⟩ := delivery.carries batch hb r hr
    exact ⟨v, hv, hval, hval ▸ (delivery.valid v hv).op_mem⟩
  refine returns_of_rejects (recordRejects_of_nil ?_ ?_ s.dlq) ?_
  · refine List.eq_nil_iff_forall_not_mem.mpr fun r hr => ?_
    obtain ⟨hmem, _, hnull⟩ := mem_malformed.mp hr
    obtain ⟨_, _, _, op, _, hop⟩ := known r hmem
    rw [hnull] at hop
    cases hop
  · refine List.eq_nil_iff_forall_not_mem.mpr fun r hr => ?_
    obtain ⟨hmem, op', hop', hout⟩ := mem_unexpected.mp hr
    obtain ⟨_, _, _, op, hin, hop⟩ := known r hmem
    rw [hop'] at hop
    exact hout (Option.some.inj hop ▸ hin)
  · intro r hr upsert
    obtain ⟨v, hv, hval, _⟩ := known r (Silver.mem_processable.mp hr).1
    rw [hval] at upsert ⊢
    exact validateUpserts_singleton.mp ((delivery.valid v hv).quality upsert)

theorem mem_events (delivery : Delivery sp events batches) (hb : batch ∈ batches)
    (leads : Leads sp batch k v) : v ∈ events := by
  obtain ⟨r, hr, hval⟩ := leads.1
  obtain ⟨v', hv', hval'⟩ := delivery.carries batch hb r hr
  rw [hval] at hval'
  exact Option.some.inj hval' ▸ hv'

/-- The change a batch makes is an event that leads it. -/
private theorem leads_of_changeAt (delivery : Delivery sp events batches) (hb : batch ∈ batches)
    (hc : changeAt sp batch k = some e) : ∃ v, Leads sp batch k v ∧
      eventAt sp 0 k (some v) = some (e.map SilverRow.ignoringIngestedAt) := by
  obtain ⟨r, hr, hev⟩ := mem_eventsAt.mp (changeAt_mem hc)
  have hmem := (Silver.mem_processable.mp hr).1
  obtain ⟨v, hv, hval⟩ := delivery.carries batch hb r hmem
  have blank := map_eventAt sp k batch.now r.kafkaValue
  rw [hev, Option.map_some, hval] at blank
  refine ⟨v, ⟨⟨r, hmem, hval⟩, ?_, fun r' hr' hk' => ?_⟩, blank.symm⟩
  · exact hval ▸ (eventAt_eq_some.mp hev).1
  · obtain ⟨v', hv', hval'⟩ := delivery.carries batch hb r' hr'
    rw [hval'] at hk' ⊢
    obtain ⟨e', he'⟩ := delivery.eventAt_isSome hv' hk'
    rw [token_of_eventAt he', token_of_eventAt blank.symm, WithBot.coe_le_coe]
    have later : eventAt sp batch.now k r'.kafkaValue = some
        ⟨e'.token, if opOf sp (some v') = some cdcDeleteOp then none
          else some (changeOf sp batch.now (some v')).toSilverRow⟩ := by
      rw [hval', eventAt_eq_some]
      exact ⟨hk', (eventAt_eq_some.mp he').2.1, rfl⟩
    have newest := le_changeAt hc
      (mem_eventsAt.mpr ⟨r', delivery.mem_processable hb hr', later⟩)
    exact newest

/-- The change of a batch is the event that leads it. -/
theorem leaderAt_eq_some (delivery : Delivery sp events batches) (hb : batch ∈ batches) :
    leaderAt sp k batch = some e ↔
      ∃ v, Leads sp batch k v ∧ eventAt sp 0 k (some v) = some e := by
  constructor
  · intro h
    obtain ⟨e', hc, rfl⟩ := Option.map_eq_some_iff.mp h
    exact delivery.leads_of_changeAt hb hc
  · rintro ⟨v, leads, hev⟩
    obtain ⟨⟨r, hr, hval⟩, hk, _⟩ := id leads
    have occurs : eventsAt sp batch k ≠ [] := by
      intro hnil
      have blank := map_eventAt sp k batch.now (some v)
      rw [hev] at blank
      obtain ⟨e₀, he₀, _⟩ := Option.map_eq_some_iff.mp blank
      have : e₀ ∈ eventsAt sp batch k :=
        mem_eventsAt.mpr ⟨r, delivery.mem_processable hb hr, hval ▸ he₀⟩
      simp [hnil] at this
    obtain ⟨e', hc⟩ := Option.ne_none_iff_exists'.mp (mt changeAt_eq_none.mp occurs)
    obtain ⟨v', leads', hev'⟩ := delivery.leads_of_changeAt hb hc
    obtain ⟨⟨r', hr', hval'⟩, hk', _⟩ := id leads'
    have same : Sql.nullsLast (lsnOf sp (some v)) = Sql.nullsLast (lsnOf sp (some v')) :=
      le_antisymm (hval ▸ leads'.2.2 r hr (hval ▸ hk)) (hval' ▸ leads.2.2 r' hr' (hval' ▸ hk'))
    rw [token_of_eventAt hev, token_of_eventAt hev', WithBot.coe_inj] at same
    have equal : v = v' := delivery.distinct v (delivery.mem_events hb leads) v'
      (delivery.mem_events hb leads') (hk.trans hk'.symm) (by
        rw [(eventAt_eq_some.mp hev).2.1, (eventAt_eq_some.mp hev').2.1, same])
    rw [leaderAt, hc, Option.map_some, ← hev', ← hev, equal]

end Delivery

/-- The cells after a delivery, ingestion times ignored. -/
theorem Delivery.cellOf_final (delivery : Delivery sp events batches)
    (empty : tables.silver = []) (k : Int) :
    (cellOf (afterBatches sp tables batches).silver k).map
        (Prod.map id SilverRow.ignoringIngestedAt) =
      Sequenced.Cell.run none (batches.filterMap (leaderAt sp k)) := by
  rw [cellOf_afterBatches (empty ▸ keyed_nil) (delivery.allReturn tables),
    Sequenced.Cell.map_run, List.map_filterMap, empty, cellOf_nil, Option.map_none]
  rfl

/-- A payment without events stays absent. -/
private theorem run_of_none (delivery : Delivery sp events batches)
    (hnone : highest sp events k = none) :
    Sequenced.Cell.run none (batches.filterMap (leaderAt sp k)) = none := by
  have silent : batches.filterMap (leaderAt sp k) = [] := by
    refine List.eq_nil_iff_forall_not_mem.mpr fun e he => ?_
    obtain ⟨batch, hb, hlead⟩ := List.mem_filterMap.mp he
    obtain ⟨v, leads, _⟩ := (delivery.leaderAt_eq_some hb).mp hlead
    exact highest_eq_none.mp hnone v (delivery.mem_events hb leads) leads.2.1
  rw [silent]
  rfl

/-- A payment whose highest event is an upsert ends with it, in any order. -/
private theorem run_of_upsert (delivery : Delivery sp events batches)
    (hhigh : highest sp events k = some v) (upsert : opOf sp (some v) ≠ some cdcDeleteOp) :
    (Sequenced.Cell.run none (batches.filterMap (leaderAt sp k))).map Prod.snd =
      some (changeOf sp 0 (some v)).toSilverRow := by
  obtain ⟨hv, hk⟩ := highest_mem hhigh
  obtain ⟨e, he⟩ := delivery.eventAt_isSome hv hk
  obtain ⟨batch, hb, r, hr, hval⟩ := delivery.complete v hv
  have leads : Leads sp batch k v := by
    refine ⟨⟨r, hr, hval⟩, hk, fun r' hr' hk' => ?_⟩
    obtain ⟨v', hv', hval'⟩ := delivery.carries batch hb r' hr'
    exact hval' ▸ le_highest hhigh hv' (hval' ▸ hk')
  have hmem : e ∈ batches.filterMap (leaderAt sp k) :=
    List.mem_filterMap.mpr ⟨batch, hb, (delivery.leaderAt_eq_some hb).mpr ⟨v, leads, he⟩⟩
  have event_of : ∀ e' ∈ batches.filterMap (leaderAt sp k), ∃ v' ∈ events,
      paymentOf sp (some v') = some k ∧ eventAt sp 0 k (some v') = some e' := by
    intro e' he'
    obtain ⟨batch', hb', hlead⟩ := List.mem_filterMap.mp he'
    obtain ⟨v', leads', hev'⟩ := (delivery.leaderAt_eq_some hb').mp hlead
    exact ⟨v', delivery.mem_events hb' leads', leads'.2.1, hev'⟩
  have written : e.value = some (changeOf sp 0 (some v)).toSilverRow := by
    rw [(eventAt_eq_some.mp he).2.2, if_neg upsert]
  rw [Sequenced.Cell.run_of_greatest hmem written (by simp)]
  · rfl
  · intro e' he'
    obtain ⟨v', hv', hk', hev'⟩ := event_of e' he'
    have le := le_highest hhigh hv' hk'
    rwa [token_of_eventAt hev', token_of_eventAt he, WithBot.coe_le_coe] at le
  · intro e' he' same
    obtain ⟨v', hv', hk', hev'⟩ := event_of e' he'
    have equal : v' = v := delivery.distinct v' hv' v hv (hk'.trans hk.symm) (by
      rw [(eventAt_eq_some.mp hev').2.1, (eventAt_eq_some.mp he).2.1, same])
    rw [equal, he] at hev'
    rw [Option.some.inj hev']

/-- A payment ends absent exactly when every batch it is written in is followed by a
batch that removes it under a higher LSN. -/
private theorem run_eq_none_iff_leads (delivery : Delivery sp events batches) (k : Int) :
    Sequenced.Cell.run none (batches.filterMap (leaderAt sp k)) = none ↔
      ∀ before batch after u, batches = before ++ batch :: after → Leads sp batch k u →
        opOf sp (some u) ≠ some cdcDeleteOp →
          ∃ later ∈ after, ∃ d', Leads sp later k d' ∧ opOf sp (some d') = some cdcDeleteOp ∧
            Sql.nullsLast (lsnOf sp (some u)) < Sql.nullsLast (lsnOf sp (some d')) := by
  rw [Sequenced.Cell.run_filterMap_eq_none_iff]
  constructor
  · rintro h before batch after u rfl leads upsert
    obtain ⟨e, he⟩ := delivery.eventAt_isSome (delivery.mem_events (by simp) leads) leads.2.1
    obtain ⟨later, hlater, d, hlead, hremove, hlt⟩ := h before batch after e rfl
      ((delivery.leaderAt_eq_some (by simp)).mpr ⟨u, leads, he⟩)
      (mt (value_of_eventAt he).mp upsert)
    obtain ⟨d', leads', hev'⟩ := (delivery.leaderAt_eq_some (by simp [hlater])).mp hlead
    refine ⟨later, hlater, d', leads', (value_of_eventAt hev').mp hremove, ?_⟩
    rw [token_of_eventAt he, token_of_eventAt hev', WithBot.coe_lt_coe]
    exact hlt
  · rintro h before batch after e rfl hlead hwrite
    obtain ⟨u, leads, he⟩ := (delivery.leaderAt_eq_some (by simp)).mp hlead
    obtain ⟨later, hlater, d', leads', hdelete, hlt⟩ := h before batch after u rfl leads
      (mt (value_of_eventAt he).mpr hwrite)
    obtain ⟨d, hd⟩ :=
      delivery.eventAt_isSome (delivery.mem_events (by simp [hlater]) leads') leads'.2.1
    refine ⟨later, hlater, d, (delivery.leaderAt_eq_some (by simp [hlater])).mpr
      ⟨d', leads', hd⟩, (value_of_eventAt hd).mpr hdelete, ?_⟩
    rwa [token_of_eventAt he, token_of_eventAt hd, WithBot.coe_lt_coe] at hlt

/-- Delivery in any order converges exactly when the deletes catch up. -/
theorem converges_iff (delivery : Delivery sp events batches) (empty : tables.silver = []) :
    Converges sp tables events batches ↔ DeletesCatchUp sp events batches := by
  have keyed : Keyed tables.silver := empty ▸ keyed_nil
  have final : Keyed (afterBatches sp tables batches).silver := keyed_afterBatches keyed
  have rows : ∀ k, (rowsOf (afterBatches sp tables batches).silver k).map
      SilverRow.ignoringIngestedAt =
        ((Sequenced.Cell.run none (batches.filterMap (leaderAt sp k))).map Prod.snd).toList := by
    intro k
    rw [final.rowsOf_eq, map_ignoring_rows, delivery.cellOf_final empty]
  constructor
  · rintro ⟨_, _, reached⟩ k d hhigh hdelete
    have hk := reached k
    rw [rows, expectedRow, hhigh, Option.bind_some, if_pos hdelete, Option.toList_none,
      Option.toList_eq_nil_iff, Option.map_eq_none_iff] at hk
    exact (run_eq_none_iff_leads delivery k).mp hk
  · intro catchUp
    refine ⟨delivery.allReturn tables, final.identified, fun k => ?_⟩
    rw [rows, expectedRow]
    cases hhigh : highest sp events k with
    | none => rw [run_of_none delivery hhigh]; rfl
    | some v =>
        by_cases hdelete : opOf sp (some v) = some cdcDeleteOp
        · rw [(run_eq_none_iff_leads delivery k).mpr (catchUp k v hhigh hdelete),
            Option.bind_some, if_pos hdelete, Option.map_none]
        · rw [run_of_upsert delivery hhigh hdelete, Option.bind_some, if_neg hdelete]

/-- Payment 1 is created and deleted, and an update from between arrives last. -/
def staleEvents : List Envelope :=
  [envelope "c" 1 10 "pending", envelope "u" 1 15 "authorized", envelope "d" 1 20 ""]

def staleBatches : List (MicroBatch Envelope) :=
  [sampleBatch 1 [recordAt 0 (envelope "c" 1 10 "pending")],
   sampleBatch 2 [recordAt 1 (envelope "d" 1 20 "")],
   sampleBatch 3 [recordAt 2 (envelope "u" 1 15 "authorized")]]

theorem staleDelivery : Delivery sampleSpark staleEvents staleBatches where
  valid := by decide
  distinct := by decide
  carries := by decide
  complete := by decide

/-- The delete does not catch up, since the update of its payment is in silver at the end. -/
theorem converges_iff_stale : ¬DeletesCatchUp sampleSpark staleEvents staleBatches := by
  intro caught
  have converges : Converges sampleSpark ⟨[], []⟩ staleEvents staleBatches :=
    (converges_iff staleDelivery rfl).mpr caught
  exact absurd (converges.2.2 1) (by decide)

/-- The update of the deleted payment is inserted again. -/
theorem not_converges_stale : Delivery sampleSpark staleEvents staleBatches ∧
    (rowsOf (afterBatches sampleSpark ⟨[], []⟩ staleBatches).silver 1).map
        (fun r => r.sourceLsn) = [some 15] ∧
    ¬Converges sampleSpark ⟨[], []⟩ staleEvents staleBatches := by
  refine ⟨staleDelivery, by decide, fun converges => ?_⟩
  exact absurd (converges.2.2 1) (by decide)

end PaymentsPlatform.Silver
