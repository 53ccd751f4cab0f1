import PaymentsPlatform.Sequenced.Rows
import PaymentsPlatform.Silver.Log

/-!
# The rows of a payment in any table

`silver.payments` has no key constraint, and the migration adds `source_lsn` without a value
to the rows that are already there. Whatever table a run starts from, the rows of a payment
go through the changes that the batches keep for it as `Sequenced.Rows` do
(`heldRows_afterBatches`), and the rows without a payment stay.
-/

namespace PaymentsPlatform.Silver

variable {Value Double : Type} {sp : SparkFunctions Value Double}
variable {batch : MicroBatch Value} {tables tables' : Tables Value} {silver : List SilverRow}
variable {batches : List (MicroBatch Value)} {k : Int} {c : Change}
variable {e : Sequenced.Change Int SilverRow}

/-- A row under its LSN, without its ingestion time. -/
def held (r : SilverRow) : Option Int × SilverRow := (r.sourceLsn, r.ignoringIngestedAt)

/-- The rows of a payment, under their LSNs. -/
def heldRows (silver : List SilverRow) (k : Int) : Sequenced.Rows Int SilverRow :=
  (rowsOf silver k).map held

/-- The rows without a payment. -/
def unidentified (silver : List SilverRow) : List SilverRow :=
  Sql.partition SilverRow.paymentId none silver

/-- A delete writes no row, an upsert the row that the statement inserts. -/
theorem row_sequenced (guarded : c.Guarded) (he : c.sequenced = some e) :
    (e.map SilverRow.ignoringIngestedAt).row = (silverMerge.insertFor c).map held := by
  obtain ⟨l, hl, rfl⟩ := Option.map_eq_some_iff.mp he
  rcases guarded with delete | ⟨upsert, _⟩
  · rw [insertFor_delete delete, if_pos delete]
    rfl
  · rw [insertFor_upsert upsert, if_neg (ne_delete_of_upsert upsert), Option.map_some, held, hl]
    rfl

theorem outdated_held {t : SilverRow} (he : c.sequenced = some e) :
    Sequenced.Outdated (e.map SilverRow.ignoringIngestedAt).token (held t) ↔
      (newer t c).holds = true := by
  obtain ⟨l, hl, rfl⟩ := Option.map_eq_some_iff.mp he
  rw [newer, Sql.lt_holds, hl]
  simp [Sequenced.Outdated, Sequenced.Change.map, held]

/-- A matched row is replaced or removed by a change exactly when it is behind. -/
theorem replace_sequenced {t : SilverRow} (guarded : c.Guarded) (he : c.sequenced = some e)
    (same : t.paymentId = c.paymentId) :
    (e.map SilverRow.ignoringIngestedAt).replace (held t) =
      (silverMerge.applyMatched t c).map held := by
  have written : (e.map SilverRow.ignoringIngestedAt).row = (silverMerge.insertFor c).map held :=
    row_sequenced guarded he
  simp only [Sequenced.Change.replace, outdated_held he, written]
  rcases guarded with delete | ⟨upsert, _⟩
  · rw [applyMatched_delete delete, insertFor_delete delete]
    split <;> rfl
  · rw [applyMatched_upsert upsert same, insertFor_upsert upsert]
    split <;> rfl

/-- The statement does to the rows of a payment what the change does. -/
theorem map_mergedRows {rows : List SilverRow} (guarded : c.Guarded)
    (same : ∀ t ∈ rows, t.paymentId = c.paymentId) :
    (silverMerge.mergedRows rows (some c)).map held = Sequenced.Rows.run (rows.map held)
      (c.sequenced.map (Sequenced.Change.map SilverRow.ignoringIngestedAt)).toList := by
  cases he : c.sequenced with
  | none =>
      -- only a delete has no LSN, and it is newer than nothing
      have hl : c.sourceLsn = none := Option.map_eq_none_iff.mp he
      have delete : c.op = some cdcDeleteOp := by
        rcases guarded with delete | ⟨_, l, hl'⟩
        · exact delete
        · cases hl.symm.trans hl'
      have kept : ∀ t ∈ rows, silverMerge.applyMatched t c = some t := by
        intro t _
        rw [applyMatched_delete delete, if_neg]
        rw [newer, Sql.lt_holds, hl]
        rintro ⟨_, _, _, ⟨⟩, _⟩
      rw [Sql.Merge.mergedRows, List.filterMap_congr kept, List.filterMap_some,
        insertFor_delete delete]
      simp
  | some e =>
      rw [Option.map_some, Option.toList_some, Sequenced.Rows.run_cons, Sequenced.Rows.run_nil]
      by_cases empty : rows = []
      · rw [empty, Sql.Merge.mergedRows_nil, List.map_nil, Sequenced.Rows.apply_nil,
          row_sequenced guarded he]
        cases silverMerge.insertFor c <;> rfl
      · rw [Sequenced.Rows.apply_of_ne_nil (by simpa using empty), Sql.Merge.mergedRows,
          if_neg empty, List.append_nil, List.map_filterMap, List.filterMap_map]
        exact List.filterMap_congr fun t ht => (replace_sequenced guarded he (same t ht)).symm

/-- A call that returns applies, on the rows of every payment, the event the batch keeps. -/
theorem heldRows_afterBatch (returns : Returns sp tables batch) (k : Int) :
    heldRows (afterBatch sp tables batch).silver k = (heldRows tables.silver k).run
      ((changeAt sp batch k).map
        (Sequenced.Change.map SilverRow.ignoringIngestedAt)).toList := by
  have valid := (upsertToSilver_ok_iff.mp returns.run_eq).2.1
  rw [heldRows, rowsOf_afterBatch returns.run_eq, changeAt]
  cases hw : batchWinner sp batch k with
  | none => rfl
  | some w =>
      obtain ⟨r, _, _, hk⟩ := winner_mem hw
      have guarded : w.toChange.Guarded := (winner_op hw).imp_right fun upsert =>
        ⟨upsert, sourceLsn_of_passesQuality (winner_passes valid hw (ne_delete_of_upsert upsert))⟩
      exact map_mergedRows guarded fun t ht => (mem_rowsOf.mp ht).2.trans hk.symm

/-- A call does not touch the rows without a payment. -/
theorem unidentified_afterBatch (sp : SparkFunctions Value Double) (tables : Tables Value)
    (batch : MicroBatch Value) :
    unidentified (afterBatch sp tables batch).silver = unidentified tables.silver := by
  by_cases returns : Returns sp tables batch
  · obtain ⟨_, valid, merged⟩ := upsertToSilver_ok_iff.mp returns.run_eq
    refine silverMerge_keyedBy.partition_none_exec merged fun c hc t hinsert => ?_
    obtain ⟨w, hw, rfl⟩ := mem_buildChanges.mp hc
    rcases winner_op hw with delete | upsert
    · rw [insertFor_delete delete] at hinsert
      cases hinsert
    · exact paymentId_of_passesQuality (winner_passes valid hw (ne_delete_of_upsert upsert))
  · rw [afterBatch_silver_of_raises returns]

theorem unidentified_afterBatches (sp : SparkFunctions Value Double) (tables : Tables Value)
    (batches : List (MicroBatch Value)) :
    unidentified (afterBatches sp tables batches).silver = unidentified tables.silver :=
  Machine.run_invariant
    (P := fun after : Tables Value => unidentified after.silver = unidentified tables.silver) rfl
    (fun after batch same => (unidentified_afterBatch sp after batch).trans same) batches

/-- Over a run without exceptions the rows of every payment run through the events the
batches keep. -/
theorem heldRows_afterBatches (all : AllReturn sp tables batches) (k : Int) :
    heldRows (afterBatches sp tables batches).silver k = (heldRows tables.silver k).run
      (batches.filterMap fun batch => (changeAt sp batch k).map
        (Sequenced.Change.map SilverRow.ignoringIngestedAt)) := by
  induction batches generalizing tables with
  | nil => rfl
  | cons batch batches ih =>
      obtain ⟨returns, rest⟩ := Machine.along_cons.mp all
      rw [afterBatches, Machine.run_cons]
      refine (ih rest).trans ?_
      rw [heldRows_afterBatch returns]
      cases hc : changeAt sp batch k <;> simp [hc]

section SameRows

/-- The same rows, ingestion times ignored. -/
def SameRows (silver silver' : List SilverRow) : Prop :=
  (silver.map SilverRow.ignoringIngestedAt).Perm (silver'.map SilverRow.ignoringIngestedAt)

instance (silver silver' : List SilverRow) : Decidable (SameRows silver silver') :=
  inferInstanceAs (Decidable (List.Perm _ _))

/-- The rows of a key do not depend on the ingestion times. -/
theorem partition_ignoring (k : Option Int) (silver : List SilverRow) :
    Sql.partition SilverRow.paymentId k (silver.map SilverRow.ignoringIngestedAt) =
      (Sql.partition SilverRow.paymentId k silver).map SilverRow.ignoringIngestedAt := by
  rw [Sql.partition, List.filter_map]
  rfl

variable {silver' : List SilverRow}

/-- The same rows are held of every payment. -/
theorem SameRows.heldRows_perm (same : SameRows silver silver') (k : Int) :
    (heldRows silver k).Perm (heldRows silver' k) := by
  have rows : ∀ silver : List SilverRow, heldRows silver k =
      (Sql.partition SilverRow.paymentId (some k) (silver.map SilverRow.ignoringIngestedAt)).map
        fun r => (r.sourceLsn, r) := by
    intro silver
    rw [partition_ignoring, List.map_map]
    rfl
  rw [rows, rows]
  exact (same.filter _).map _

/-- Tables that hold the same of every payment and of none have the same rows. -/
theorem sameRows_of_heldRows (rows : ∀ k, heldRows silver k = heldRows silver' k)
    (others : unidentified silver = unidentified silver') : SameRows silver silver' := by
  refine Sql.perm_of_partition SilverRow.paymentId fun k => ?_
  rw [partition_ignoring, partition_ignoring]
  cases k with
  | none => exact congrArg _ others
  | some k =>
      have values := congrArg (List.map Prod.snd) (rows k)
      rw [heldRows, heldRows, List.map_map, List.map_map] at values
      exact values

end SameRows

end PaymentsPlatform.Silver
