import PaymentsPlatform.Silver.Accounting

/-!
# The structure of the silver table

The records of a batch may be in any order, repeated, stale, or without an identity
or an LSN. Whatever they are, the table stays `Keyed`, a call that raises leaves it
alone, and a call that returns gives every row one of three fates (`RowFate`): a row
is only ever replaced or removed by something with a greater LSN, and only the
`Highest` event of its payment in the batch can remove it.
-/

namespace PaymentsPlatform.Silver

variable {Value Double : Type}

section Definitions

variable (sp : SparkFunctions Value Double)

/-- The window order on records: LSN first, NULLs last, then the offset. -/
def recordOrder (r : Record Value) : WithBot Int ×ₗ Int :=
  toLex (Sql.nullsLast (lsnOf sp r.kafkaValue), r.kafkaOffset)

/-- The record is an event of `k`, and none in the batch comes after it in the window
order. -/
structure Highest (records : List (Record Value)) (k : Int) (r : Record Value) : Prop where
  mem : r ∈ records
  event : IsEvent sp r
  about : paymentOf sp r.kafkaValue = some k
  highest : ∀ r' ∈ records, IsEvent sp r' → paymentOf sp r'.kafkaValue = some k →
    recordOrder sp r' ≤ recordOrder sp r

/-- What a call that returns makes of the row `t` of `k` with LSN `held`: it is still
there, or a row with a greater LSN is, or the highest event of `k` in the batch is a
delete with a greater LSN and there is none. -/
def RowFate (batch : MicroBatch Value) (after : List SilverRow) (k held : Int) (t : SilverRow) :
    Prop :=
  rowsOf after k = [t] ∨
  (∃ t' l, rowsOf after k = [t'] ∧ t'.sourceLsn = some l ∧ held < l) ∨
  (rowsOf after k = [] ∧ ∃ r l, Highest sp batch.records k r ∧
    opOf sp r.kafkaValue = some cdcDeleteOp ∧ lsnOf sp r.kafkaValue = some l ∧ held < l)

/-- What every call of `_upsert_to_silver` does to the silver table it finds. -/
structure CallSound (tables : Tables Value) (batch : MicroBatch Value) : Prop where
  singleSource : ∀ t, (batchChanges sp batch).countP (silverMerge.pairs t) ≤ 1
  raises : ∀ e tables', (upsertToSilver sp batch).run tables = .error e tables' →
    tables'.silver = tables.silver
  returns : ∀ tables', (upsertToSilver sp batch).run tables = .ok () tables' →
    ∀ t ∈ tables.silver, ∃ k held, t.paymentId = some k ∧ t.sourceLsn = some held ∧
      RowFate sp batch tables'.silver k held t

end Definitions

variable {sp : SparkFunctions Value Double} {batch : MicroBatch Value}
variable {tables tables' : Tables Value} {k held : Int} {t : SilverRow}

/-- The batch keeps a highest event of the payment. -/
theorem highest_of_batchWinner {w : Projected} (hw : batchWinner sp batch k = some w) :
    ∃ r, Highest sp batch.records k r ∧ project sp batch.now r = w := by
  obtain ⟨r, hr, hproj, hk⟩ := winner_mem hw
  subst hproj
  obtain ⟨hmem, hevent⟩ := mem_processable.mp hr
  refine ⟨r, ⟨hmem, hevent, hk, fun r' hr' hevent' hk' => ?_⟩, rfl⟩
  exact Sql.le_latestOf hw (List.mem_map_of_mem (mem_processable.mpr ⟨hr', hevent'⟩)) hk'

/-- The change of a batch comes from a highest event of the payment. -/
theorem highest_of_changeAt {e : Sequenced.Change Int SilverRow}
    (h : changeAt sp batch k = some e) :
    ∃ r, Highest sp batch.records k r ∧ eventAt sp batch.now k r.kafkaValue = some e := by
  obtain ⟨w, hw, hc⟩ := Option.bind_eq_some_iff.mp h
  obtain ⟨r, hhighest, hproj⟩ := highest_of_batchWinner hw
  subst hproj
  exact ⟨r, hhighest, (if_pos hhighest.about).trans hc⟩

/-- No change set has two rows for one target row. -/
theorem countP_pairs_le_one (sp : SparkFunctions Value Double) (batch : MicroBatch Value)
    (t : SilverRow) : (batchChanges sp batch).countP (silverMerge.pairs t) ≤ 1 := by
  cases hk : t.paymentId with
  | none =>
      rw [List.countP_eq_zero.mpr]
      · exact Nat.zero_le 1
      · intro s _ hpairs
        obtain ⟨k, ht, _⟩ := silverMerge_pairs.mp hpairs
        rw [hk] at ht
        cases ht
  | some k =>
      have unique := batchChanges_unique sp batch k
      rw [Sql.partition, ← List.countP_eq_length_filter] at unique
      refine le_trans (List.countP_mono_left fun s _ hpairs => ?_) unique
      obtain ⟨k', ht, hs⟩ := silverMerge_pairs.mp hpairs
      rw [hk] at ht
      rw [decide_eq_true_eq, hs, ← ht]

/-- The cell of a row's payment holds that row. -/
theorem Keyed.cellOf_of_mem {silver : List SilverRow} (keyed : Keyed silver) (ht : t ∈ silver)
    (hk : t.paymentId = some k) (hheld : t.sourceLsn = some held) :
    cellOf silver k = some (held, t) := by
  have hmem : t ∈ rowsOf silver k := mem_rowsOf.mpr ⟨ht, hk⟩
  rw [keyed.rowsOf_eq] at hmem
  obtain ⟨⟨l, t'⟩, hcell, hsame⟩ := Option.map_eq_some_iff.mp (Option.mem_toList.mp hmem)
  cases hsame
  have hstamp : t'.sourceLsn = some l := (stamped_cellOf silver k _ hcell).2
  have hl : l = held := Option.some.inj (hstamp.symm.trans hheld)
  rw [hcell, hl]

/-- The fate of a row whose cell is known before the call. -/
theorem rowFate_of_returns (keyed : Keyed tables.silver)
    (h : (upsertToSilver sp batch).run tables = .ok () tables')
    (hcell : cellOf tables.silver k = some (held, t)) :
    RowFate sp batch tables'.silver k held t := by
  have returns : Returns sp tables batch := ⟨tables', h⟩
  have keyed' : Keyed tables'.silver := afterBatch_of_ok h ▸ keyed_afterBatch sp batch keyed
  have cell := cellOf_afterBatch keyed returns k
  rw [afterBatch_of_ok h, hcell] at cell
  have rows := keyed'.rowsOf_eq k
  cases hc : changeAt sp batch k with
  | none =>
      rw [hc] at cell
      rw [cell] at rows
      exact .inl rows
  | some e =>
      rw [hc, Option.toList_some, Sequenced.Cell.run_cons, Sequenced.Cell.run_nil] at cell
      by_cases hnewer : held < e.token
      · rw [Sequenced.Cell.apply_of_lt hnewer, Sequenced.Change.outcome] at cell
        obtain ⟨r, hhighest, hevent⟩ := highest_of_changeAt hc
        obtain ⟨_, hlsn, hvalue⟩ := eventAt_eq_some.mp hevent
        by_cases hdelete : opOf sp r.kafkaValue = some cdcDeleteOp
        · rw [if_pos hdelete] at hvalue
          rw [cell, hvalue] at rows
          exact .inr (.inr ⟨rows, r, e.token, hhighest, hdelete, hlsn, hnewer⟩)
        · rw [if_neg hdelete] at hvalue
          rw [cell, hvalue] at rows
          exact .inr (.inl ⟨_, e.token, rows, hlsn, hnewer⟩)
      · rw [Sequenced.Cell.apply_of_le (not_lt.mp hnewer)] at cell
        rw [cell] at rows
        exact .inl rows

theorem callSound_of_keyed (keyed : Keyed tables.silver) : CallSound sp tables batch where
  singleSource := countP_pairs_le_one sp batch
  raises _ _ h := upsertToSilver_error_silver h
  returns _ h t ht := by
    obtain ⟨k, hk⟩ := keyed.identified t ht
    obtain ⟨held, hheld⟩ := keyed.sequenced t ht
    exact ⟨k, held, hk, hheld, rowFate_of_returns keyed h (keyed.cellOf_of_mem ht hk hheld)⟩

/-- Every run from an empty silver table, over records of any contents, stays in keyed
tables, and every call of it is sound. -/
theorem structure_of_runs (sp : SparkFunctions Value Double) (dlq : List (DlqRow Value))
    (batches : List (MicroBatch Value)) :
    Machine.Always (afterBatch sp) (fun tables => Keyed tables.silver) ⟨[], dlq⟩ batches ∧
      Machine.Along (afterBatch sp) (CallSound sp) ⟨[], dlq⟩ batches := by
  have keyed : Machine.Always (afterBatch sp) (fun tables => Keyed tables.silver) ⟨[], dlq⟩
      batches :=
    Machine.always_of_invariant keyed_nil fun _ batch keyed => keyed_afterBatch sp batch keyed
  refine ⟨keyed, fun before batch hbefore => callSound_of_keyed (keyed before ?_)⟩
  exact (List.prefix_append before [batch]).trans hbefore

end PaymentsPlatform.Silver
