import PaymentsPlatform.Silver.Envelope
import PaymentsPlatform.Silver.Rows

/-!
# Where the log is cut

Two orders decide which event of a payment counts: inside a batch the LSN and then the
offset, between batches the LSN alone, under a strict guard. On a log whose LSNs never
decrease they differ only on events that share an LSN: inside a batch the last of them
counts, across batches the first one that writes. A table with several rows of a payment
shows the cut as well: a delete in a batch of its own removes those that are behind it, and
a later upsert does not bring them back.

`cuts_agree_iff` says from which tables and on which logs the difference cannot be seen, for
any table: its rows may lack an LSN or a payment, and a payment may have several.
-/

namespace PaymentsPlatform.Silver

variable {Value Double : Type}

section Definitions

variable (sp : SparkFunctions Value Double)

/-- A log of valid events. Along the events of a payment the offsets grow and the LSNs do
not decrease. -/
structure OffsetOrder (log : List (Record Value)) : Prop where
  valid : ∀ r ∈ log, ∃ v ∈ r.kafkaValue, ValidEvent sp v
  offsets : log.Pairwise fun r₁ r₂ =>
    paymentOf sp r₁.kafkaValue = paymentOf sp r₂.kafkaValue → r₁.kafkaOffset < r₂.kafkaOffset
  lsns : log.Pairwise fun r₁ r₂ =>
    paymentOf sp r₁.kafkaValue = paymentOf sp r₂.kafkaValue →
      Sql.nullsLast (lsnOf sp r₁.kafkaValue) ≤ Sql.nullsLast (lsnOf sp r₂.kafkaValue)

instance (log : List (Record Value)) : Decidable (OffsetOrder sp log) :=
  decidable_of_iff
    ((∀ r ∈ log, ∃ v ∈ r.kafkaValue, ValidEvent sp v) ∧
      (log.Pairwise fun r₁ r₂ => paymentOf sp r₁.kafkaValue = paymentOf sp r₂.kafkaValue →
        r₁.kafkaOffset < r₂.kafkaOffset) ∧
      log.Pairwise fun r₁ r₂ => paymentOf sp r₁.kafkaValue = paymentOf sp r₂.kafkaValue →
        Sql.nullsLast (lsnOf sp r₁.kafkaValue) ≤ Sql.nullsLast (lsnOf sp r₂.kafkaValue))
    ⟨fun ⟨hv, ho, hl⟩ => ⟨hv, ho, hl⟩, fun h => ⟨h.valid, h.offsets, h.lsns⟩⟩

/-- For every payment with a last event in the log: its rows settle what the events before
that one do. -/
def RowsSettled (silver : List SilverRow) (log : List (Record Value)) : Prop :=
  ∀ k last, (loggedAt sp k log).getLast? = some last →
    (heldRows silver k).Settled (loggedAt sp k log) last

end Definitions

variable {sp : SparkFunctions Value Double} {batch : MicroBatch Value} {tables : Tables Value}
variable {batches : List (MicroBatch Value)} {log : List (Record Value)} {k : Int}

namespace OffsetOrder

theorem sublist {part : List (Record Value)} (h : OffsetOrder sp log) (hsub : part.Sublist log) :
    OffsetOrder sp part where
  valid r hr := h.valid r (hsub.subset hr)
  offsets := h.offsets.sublist hsub
  lsns := h.lsns.sublist hsub

theorem processable_eq (h : OffsetOrder sp log) : processable sp log = log := by
  rw [processable, knownOps, List.filter_filter, List.filter_filter, List.filter_eq_self]
  intro r hr
  obtain ⟨v, hv, valid⟩ := h.valid r hr
  obtain ⟨op, hop, heq⟩ := valid.op_mem
  rw [Option.mem_def.mp hv, heq, Option.isSome_some, Option.isSome_some, Bool.and_true,
    Bool.and_true]
  exact Sql.isIn_holds.mpr ⟨op, hop, rfl⟩

/-- No call raises on such a log, wherever it is cut. -/
theorem allReturn (h : OffsetOrder sp (batches.flatMap MicroBatch.records))
    (tables : Tables Value) : AllReturn sp tables batches := by
  refine Machine.along_of_forall fun batch hb tables => ?_
  have order : OffsetOrder sp batch.records :=
    h.sublist (List.sublist_flatten_of_mem (List.mem_map_of_mem hb))
  have valid : ∀ r ∈ batch.records, ∃ op ∈ cdcOps, opOf sp r.kafkaValue = some op := by
    intro r hr
    rw [← order.processable_eq] at hr
    exact (mem_processable.mp hr).2
  have malformed_nil : malformed sp batch.records = [] := by
    rw [List.eq_nil_iff_forall_not_mem]
    intro r hr
    obtain ⟨hmem, _, hop⟩ := mem_malformed.mp hr
    obtain ⟨op, _, heq⟩ := valid r hmem
    cases hop.symm.trans heq
  have unexpected_nil : unexpected sp batch.records = [] := by
    rw [List.eq_nil_iff_forall_not_mem]
    intro r hr
    obtain ⟨hmem, op, hop, hout⟩ := mem_unexpected.mp hr
    obtain ⟨op', hin, heq⟩ := valid r hmem
    cases hop.symm.trans heq
    exact hout hin
  refine returns_of_rejects (recordRejects_of_nil malformed_nil unexpected_nil _) ?_
  intro r hr upsert
  obtain ⟨v, hv, valid⟩ := order.valid r (mem_processable.mp hr).1
  rw [Option.mem_def.mp hv] at upsert ⊢
  exact validateUpserts_singleton.mp (valid.quality upsert)

/-- The events of a payment come with LSNs that do not decrease. -/
theorem monotone (h : OffsetOrder sp log) (k : Int) :
    (loggedAt sp k log).Pairwise fun e₁ e₂ => e₁.token ≤ e₂.token := by
  rw [loggedAt, h.processable_eq, List.pairwise_filterMap]
  refine h.lsns.imp fun hle e₁ h₁ e₂ h₂ => ?_
  obtain ⟨hk₁, hl₁, _⟩ := eventAt_eq_some.mp h₁
  obtain ⟨hk₂, hl₂, _⟩ := eventAt_eq_some.mp h₂
  have ordered := hle (hk₁.trans hk₂.symm)
  rw [hl₁, hl₂] at ordered
  exact WithBot.coe_le_coe.mp ordered

/-- Nothing is newer than the last event. -/
theorem le_last (h : OffsetOrder sp log) {e last : Sequenced.Change Int SilverRow}
    (hlast : (loggedAt sp k log).getLast? = some last) (he : e ∈ loggedAt sp k log) :
    e.token ≤ last.token := by
  have monotone := h.monotone k
  rcases List.eq_nil_or_concat' (loggedAt sp k log) with hnil | ⟨es, x, hes⟩
  · rw [hnil] at hlast
    cases hlast
  · rw [hes, List.getLast?_concat] at hlast
    cases hlast
    rw [hes] at monotone he
    rcases List.mem_append.mp he with hbefore | hx
    · exact (List.pairwise_append.mp monotone).2.2 e hbefore _ (List.mem_singleton_self _)
    · rw [List.mem_singleton.mp hx]

/-- Inside a batch the last event of a payment counts, also among equal LSNs. -/
theorem batchWinner_eq (h : OffsetOrder sp batch.records) (k : Int) : batchWinner sp batch k =
    (batch.records.filter fun r => paymentOf sp r.kafkaValue = some k).getLast?.map
      (project sp batch.now) := by
  have members : Sql.partition (fun r : Projected => r.paymentId) (some k)
      ((processable sp batch.records).map (project sp batch.now)) =
        (batch.records.filter fun r => paymentOf sp r.kafkaValue = some k).map
          (project sp batch.now) := by
    rw [h.processable_eq, Sql.partition, List.filter_map]
    rfl
  rw [batchWinner, Silver.winner, Sql.latestOf_eq_getLast?, members, List.getLast?_map]
  rw [members, List.pairwise_map]
  refine (List.Pairwise.filter _ (h.offsets.and h.lsns)).imp_of_mem ?_
  rintro r₁ r₂ h₁ h₂ ⟨hoffset, hlsn⟩
  have same : paymentOf sp r₁.kafkaValue = paymentOf sp r₂.kafkaValue :=
    (of_decide_eq_true (List.mem_filter.mp h₁).2).trans
      (of_decide_eq_true (List.mem_filter.mp h₂).2).symm
  rw [sequenceKey, sequenceKey, Prod.Lex.toLex_lt_toLex]
  exact (hlsn same).lt_or_eq.imp_right fun heq => ⟨heq, hoffset same⟩

theorem changeAt_eq (h : OffsetOrder sp batch.records) (k : Int) :
    changeAt sp batch k = (eventsAt sp batch k).getLast? := by
  have events : eventsAt sp batch k =
      (batch.records.filter fun r => paymentOf sp r.kafkaValue = some k).filterMap
        fun r => (changeOf sp batch.now r.kafkaValue).sequenced := by
    rw [eventsAt, h.processable_eq, List.filterMap_filter]
    simp only [eventAt, decide_eq_true_eq]
  have sequenced : ∀ r ∈ batch.records.filter fun r => paymentOf sp r.kafkaValue = some k,
      ∃ e, (changeOf sp batch.now r.kafkaValue).sequenced = some e := by
    intro r hr
    obtain ⟨v, hv, valid⟩ := h.valid r (List.mem_filter.mp hr).1
    obtain ⟨l, hl⟩ := valid.sequenced
    rw [Change.sequenced, changeOf_sourceLsn, Option.mem_def.mp hv, hl]
    exact ⟨_, rfl⟩
  rw [changeAt, h.batchWinner_eq, events]
  rcases List.eq_nil_or_concat'
      (batch.records.filter fun r => paymentOf sp r.kafkaValue = some k) with hnil | ⟨rs, r, hr⟩
  · rw [hnil]
    rfl
  · obtain ⟨e, he⟩ := sequenced r (hr ▸ List.mem_append_right _ (List.mem_singleton_self r))
    have last : ([r].filterMap fun r => (changeOf sp batch.now r.kafkaValue).sequenced) = [e] := by
      simp [he]
    rw [hr, List.filterMap_append, last, List.getLast?_concat, List.getLast?_concat]
    exact he

/-- The rows of a payment run through the last events of the batches. -/
theorem heldRows_eq (h : OffsetOrder sp (batches.flatMap MicroBatch.records))
    (tables : Tables Value) (k : Int) :
    heldRows (afterBatches sp tables batches).silver k = (heldRows tables.silver k).run
      ((batches.map fun batch => loggedAt sp k batch.records).filterMap List.getLast?) := by
  rw [heldRows_afterBatches (h.allReturn tables), List.filterMap_map]
  refine congrArg _ (List.filterMap_congr fun batch hb => ?_)
  have order : OffsetOrder sp batch.records :=
    h.sublist (List.sublist_flatten_of_mem (List.mem_map_of_mem hb))
  rw [order.changeAt_eq, ← List.getLast?_map, map_eventsAt]
  rfl

end OffsetOrder

/-- Where the rows are settled, they are after the log those that its last event leaves,
whatever the cut. -/
private theorem heldRows_of_settled (order : OffsetOrder sp log)
    (settled : RowsSettled sp tables.silver log) (hcut : batches.flatMap MicroBatch.records = log)
    (k : Int) : heldRows (afterBatches sp tables batches).silver k =
      (heldRows tables.silver k).run (loggedAt sp k log).getLast?.toList := by
  subst hcut
  rw [order.heldRows_eq]
  have events : loggedAt sp k (batches.flatMap MicroBatch.records) =
      (batches.map fun batch => loggedAt sp k batch.records).flatten := loggedAt_flatMap batches
  cases hlast : (loggedAt sp k (batches.flatMap MicroBatch.records)).getLast? with
  | none =>
      have empty : ∀ batch ∈ batches, (loggedAt sp k batch.records).getLast? = none := by
        rw [List.getLast?_eq_none_iff.mp hlast] at events
        intro batch hb
        rw [List.getLast?_eq_none_iff]
        exact List.flatten_eq_nil_iff.mp events.symm _ (List.mem_map_of_mem hb)
      have skipped : (batches.map fun batch => loggedAt sp k batch.records).filterMap
          List.getLast? = [] := by
        rw [List.filterMap_map, List.filterMap_eq_nil_iff]
        exact empty
      rw [skipped]
      rfl
  | some last =>
      have rows := settled k last hlast
      rw [events] at hlast rows
      refine Sequenced.Rows.run_lasts_of_settled hlast (fun e he => ?_) rows
      rw [← events] at hlast he
      exact order.le_last hlast he

/-- The log can be cut behind the record of an event. -/
private theorem exists_cut_behind (order : OffsetOrder sp log)
    {e : Sequenced.Change Int SilverRow} (he : e ∈ loggedAt sp k log) :
    ∃ before after, before ++ after = log ∧ (loggedAt sp k before).getLast? = some e := by
  obtain ⟨r, hr, hevent⟩ := List.mem_filterMap.mp he
  rw [order.processable_eq] at hr
  obtain ⟨before, after, hlog⟩ := List.append_of_mem hr
  have own : loggedAt sp k [r] = [e] := by
    have part : OffsetOrder sp [r] := order.sublist (List.singleton_sublist.mpr hr)
    simp [loggedAt, part.processable_eq, hevent]
  refine ⟨before ++ [r], after, by simp [hlog], ?_⟩
  rw [loggedAt_append, own, List.getLast?_concat]

/-- A cut behind an event that is not the last one, against no cut at all. -/
private theorem perm_of_cuts (order : OffsetOrder sp log)
    (agree : ∀ cut cut' : List (MicroBatch Value), cut.flatMap MicroBatch.records = log →
      cut'.flatMap MicroBatch.records = log →
      SameRows (afterBatches sp tables cut).silver (afterBatches sp tables cut').silver)
    {e last : Sequenced.Change Int SilverRow} (hlast : (loggedAt sp k log).getLast? = some last)
    (he : e ∈ loggedAt sp k log) (other : e ≠ last) :
    (((heldRows tables.silver k).apply e).apply last).Perm
      ((heldRows tables.silver k).apply last) := by
  obtain ⟨before, after, hlog, first⟩ := exists_cut_behind order he
  have second : (loggedAt sp k after).getLast? = some last := by
    rw [← hlog, loggedAt_append, List.getLast?_append] at hlast
    cases hafter : (loggedAt sp k after).getLast? with
    | some x =>
        rw [hafter] at hlast
        exact hlast
    | none =>
        rw [hafter, first] at hlast
        exact absurd (Option.some.inj hlast) other
  have cut : [(⟨0, 0, before⟩ : MicroBatch Value), ⟨0, 0, after⟩].flatMap MicroBatch.records =
      log := by simp [hlog]
  have whole : [(⟨0, 0, log⟩ : MicroBatch Value)].flatMap MicroBatch.records = log := by simp
  have same := (agree _ _ cut whole).heldRows_perm k
  rw [OffsetOrder.heldRows_eq (cut.symm ▸ order), OffsetOrder.heldRows_eq (whole.symm ▸ order)]
    at same
  have lasts : ([(⟨0, 0, before⟩ : MicroBatch Value), ⟨0, 0, after⟩].map
      fun batch => loggedAt sp k batch.records).filterMap List.getLast? = [e, last] := by
    simp [first, second]
  have one : ([(⟨0, 0, log⟩ : MicroBatch Value)].map
      fun batch => loggedAt sp k batch.records).filterMap List.getLast? = [last] := by
    simp [hlast]
  rwa [lasts, one] at same

/-- Every two cuts of a log end in the same silver rows exactly when it finds the rows of its
payments settled. -/
theorem cuts_agree_iff (order : OffsetOrder sp log) :
    (∀ cut cut' : List (MicroBatch Value), cut.flatMap MicroBatch.records = log →
        cut'.flatMap MicroBatch.records = log →
        SameRows (afterBatches sp tables cut).silver (afterBatches sp tables cut').silver) ↔
      RowsSettled sp tables.silver log := by
  constructor
  · intro agree k last hlast
    exact (Sequenced.Rows.settled_iff fun e he => order.le_last hlast he).mpr
      fun e he other => perm_of_cuts order agree hlast he other
  · intro settled cut cut' hcut hcut'
    refine sameRows_of_heldRows (fun k => ?_) ?_
    · rw [heldRows_of_settled order settled hcut, heldRows_of_settled order settled hcut']
    · rw [unidentified_afterBatches, unidentified_afterBatches]

/-- Two upserts of payment 1 that share an LSN. -/
def tiedLog : List (Record Envelope) :=
  [recordAt 0 (envelope "c" 1 10 "pending"), recordAt 1 (envelope "u" 1 10 "authorized")]

/-- The same two events, the second one repeated: the tie is with itself. -/
def agreeingLog : List (Record Envelope) :=
  [recordAt 0 (envelope "c" 1 10 "pending"), recordAt 1 (envelope "u" 1 11 "authorized"),
   recordAt 2 (envelope "u" 1 11 "authorized")]

private theorem agreeingLog_settled : RowsSettled sampleSpark [] agreeingLog := by
  intro k last hlast
  have about : ∀ r ∈ processable sampleSpark agreeingLog,
      paymentOf sampleSpark r.kafkaValue = some 1 := by decide
  obtain ⟨r, hr, hevent⟩ := List.mem_filterMap.mp (List.mem_of_getLast? hlast)
  have hk : k = 1 := Option.some.inj ((eventAt_eq_some.mp hevent).1.symm.trans (about r hr))
  subst hk
  have events : loggedAt sampleSpark 1 agreeingLog =
      [⟨10, some (changeOf sampleSpark 0 (some (envelope "c" 1 10 "pending"))).toSilverRow⟩,
       ⟨11, some (changeOf sampleSpark 0 (some (envelope "u" 1 11 "authorized"))).toSilverRow⟩,
       ⟨11, some (changeOf sampleSpark 0 (some (envelope "u" 1 11 "authorized"))).toSilverRow⟩] :=
    rfl
  rw [events] at hlast ⊢
  cases hlast
  refine .inr ⟨fun e he tied _ => ?_, .inl (Nat.zero_le 1)⟩
  rcases List.mem_cons.mp he with rfl | he
  · exact absurd tied (by decide)
  · simp only [List.mem_cons, List.not_mem_nil, or_false, or_self] at he
    rw [he]
    rfl

theorem cuts_agree_iff_sample :
    SameRows
      (afterBatches sampleSpark ⟨[], []⟩
        [sampleBatch 1 (agreeingLog.take 2), sampleBatch 2 (agreeingLog.drop 2)]).silver
      (afterBatches sampleSpark ⟨[], []⟩ [sampleBatch 3 agreeingLog]).silver :=
  (cuts_agree_iff (show OffsetOrder sampleSpark agreeingLog by decide)).mpr
    agreeingLog_settled _ _ (by decide) (by decide)

/-- In one batch the later event wins; in two the first one keeps its row. -/
theorem tiedLog_depends_on_cut :
    OffsetOrder sampleSpark tiedLog ∧
      ¬SameRows
        (afterBatches sampleSpark ⟨[], []⟩ [sampleBatch 1 tiedLog]).silver
        (afterBatches sampleSpark ⟨[], []⟩
          [sampleBatch 1 (tiedLog.take 1), sampleBatch 2 (tiedLog.drop 1)]).silver := by
  decide

end PaymentsPlatform.Silver
