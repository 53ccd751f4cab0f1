import PaymentsPlatform.Machine.Run
import PaymentsPlatform.Sequenced.Cell
import PaymentsPlatform.Silver.Upsert

/-!
# The silver table as a map of sequenced cells

A silver table is `Keyed` when it has at most one row for a payment and no row
without an identity or an LSN. Every call keeps that, whatever the records are, so
every table that grew from the empty one can be read as a map `cellOf` from payments
to cells whose token is the LSN.

`cellOf_afterBatch` is the refinement: on every cell, a call that returns applies the
event the batch keeps for that payment, and nothing else. `cellOf_afterBatches`
lifts it to runs, which is where the theory of sequenced cells takes over.
-/

namespace PaymentsPlatform.Silver

variable {Value Double : Type} {sp : SparkFunctions Value Double}
variable {batch : MicroBatch Value} {tables tables' : Tables Value} {silver : List SilverRow}
variable {k : Int} {w : Projected} {c : Change}

/-- The rows of one payment. -/
def rowsOf (silver : List SilverRow) (k : Int) : List SilverRow :=
  Sql.partition SilverRow.paymentId (some k) silver

@[simp] theorem mem_rowsOf {r : SilverRow} :
    r ∈ rowsOf silver k ↔ r ∈ silver ∧ r.paymentId = some k := Sql.mem_partition

/-- The invariant of the silver table. -/
structure Keyed (silver : List SilverRow) : Prop where
  identified : ∀ r ∈ silver, ∃ k, r.paymentId = some k
  sequenced : ∀ r ∈ silver, ∃ l, r.sourceLsn = some l
  unique : ∀ k, (rowsOf silver k).length ≤ 1

theorem keyed_nil : Keyed [] where
  identified r hr := by cases hr
  sequenced r hr := by cases hr
  unique _ := Nat.zero_le 1

/-- What silver remembers of a payment: its row, under the row's LSN. -/
def cellOf (silver : List SilverRow) (k : Int) : Sequenced.Cell Int SilverRow :=
  (rowsOf silver k).head?.bind fun r => r.sourceLsn.map fun l => (l, r)

@[simp] theorem cellOf_nil (k : Int) : cellOf [] k = none := rfl

theorem Keyed.rowsOf_eq (keyed : Keyed silver) (k : Int) :
    rowsOf silver k = ((cellOf silver k).map Prod.snd).toList := by
  have one := keyed.unique k
  unfold cellOf
  cases hrows : rowsOf silver k with
  | nil => rfl
  | cons r rest =>
      have hr : r ∈ silver := (mem_rowsOf.mp (hrows ▸ List.mem_cons_self)).1
      obtain ⟨l, hl⟩ := keyed.sequenced r hr
      rw [hrows, List.length_cons] at one
      have hrest : rest = [] := List.eq_nil_of_length_eq_zero (by omega)
      simp [hl, hrest]

/-- Keyed tables with the same cells are the same table. -/
theorem Keyed.perm {silver' : List SilverRow} (keyed : Keyed silver) (keyed' : Keyed silver')
    (cells : ∀ k, cellOf silver k = cellOf silver' k) : silver.Perm silver' := by
  refine Sql.perm_of_partition SilverRow.paymentId fun k => ?_
  cases k with
  | some k => exact (keyed.rowsOf_eq k).trans (cells k ▸ (keyed'.rowsOf_eq k).symm)
  | none =>
      have none_of : ∀ {rows : List SilverRow}, Keyed rows →
          Sql.partition SilverRow.paymentId none rows = [] := by
        intro rows hrows
        rw [Sql.partition, List.filter_eq_nil_iff]
        intro r hr hnull
        obtain ⟨k, hk⟩ := hrows.identified r hr
        simp [hk] at hnull
      rw [none_of keyed, none_of keyed']

/-- A change as the sequence guard sees it; without an LSN it is never newer than
anything. -/
def Change.sequenced (c : Change) : Option (Sequenced.Change Int SilverRow) :=
  c.sourceLsn.map fun l =>
    { token := l, value := if c.op = some cdcDeleteOp then none else some c.toSilverRow }

/-- The change a batch makes to the cell of `k`. -/
def changeAt (sp : SparkFunctions Value Double) (batch : MicroBatch Value) (k : Int) :
    Option (Sequenced.Change Int SilverRow) :=
  (batchWinner sp batch k).bind fun w => w.toChange.sequenced

theorem winner_op {k : Option Int}
    (hw : winner sp batch.now (processable sp batch.records) k = some w) :
    w.op = some cdcDeleteOp ∨ ∃ op ∈ cdcUpsertOps, w.op = some op := by
  obtain ⟨r, hr, rfl, _⟩ := winner_mem hw
  obtain ⟨_, op, hop, heq⟩ := mem_processable.mp hr
  rcases mem_cdcOps.mp hop with rfl | hup
  · exact .inl heq
  · exact .inr ⟨op, hup, heq⟩

/-- In a batch that passes, every upsert that wins its payment passes. -/
theorem winner_passes {k : Option Int}
    (valid : validateUpserts (upsertsOf (batchChanges sp batch)) = .ok ())
    (hw : winner sp batch.now (processable sp batch.records) k = some w)
    (upsert : w.op ≠ some cdcDeleteOp) : passesQuality w.toSilverRow = true := by
  obtain ⟨r, _, _, hk⟩ := winner_mem hw
  apply (validateUpserts_eq_ok.mp valid).1 w.toChange
  refine mem_upsertsOf.mpr ⟨mem_buildChanges.mpr ⟨w, ?_, rfl⟩, (winner_op hw).resolve_left upsert⟩
  rw [hk]
  exact hw

theorem insertFor_delete (delete : c.op = some cdcDeleteOp) : silverMerge.insertFor c = none := by
  rw [silverMerge_insertFor, if_neg]
  rw [Sql.isIn_holds]
  exact fun upsert => ne_delete_of_upsert upsert delete

theorem insertFor_upsert (upsert : ∃ op ∈ cdcUpsertOps, c.op = some op) :
    silverMerge.insertFor c = some c.toSilverRow := by
  rw [silverMerge_insertFor, if_pos (Sql.isIn_holds.mpr upsert)]

theorem applyMatched_delete {t : SilverRow} (delete : c.op = some cdcDeleteOp) :
    silverMerge.applyMatched t c = if (newer t c).holds then none else some t := by
  rw [silverMerge_applyMatched, if_pos delete]

theorem applyMatched_upsert {t : SilverRow} (upsert : ∃ op ∈ cdcUpsertOps, c.op = some op)
    (same : t.paymentId = c.paymentId) :
    silverMerge.applyMatched t c = if (newer t c).holds then some c.toSilverRow else some t := by
  rw [silverMerge_applyMatched, if_neg (ne_delete_of_upsert upsert),
    if_pos (Sql.isIn_holds.mpr upsert), same]

theorem newer_holds {t : SilverRow} {l : Int} (held : t.sourceLsn = some l) :
    (newer t c).holds = true ↔ ∃ l', c.sourceLsn = some l' ∧ l < l' := by
  rw [newer, Sql.lt_holds, held]
  simp

/-- What the sequence guard needs of a change: a delete, or an upsert with an LSN. -/
def Change.Guarded (c : Change) : Prop :=
  c.op = some cdcDeleteOp ∨ (∃ op ∈ cdcUpsertOps, c.op = some op) ∧ ∃ l, c.sourceLsn = some l

/-- Where there is no row, the statement fills the cell as the change asks. -/
theorem insertFor_sequenced (guarded : c.Guarded) : silverMerge.insertFor c =
    (Sequenced.Cell.run none c.sequenced.toList).map Prod.snd := by
  rcases guarded with delete | ⟨upsert, l, hl⟩
  · rw [insertFor_delete delete]
    cases hl : c.sourceLsn <;>
      simp [Change.sequenced, hl, delete, Sequenced.Change.outcome]
  · simp [insertFor_upsert upsert, Change.sequenced, hl, ne_delete_of_upsert upsert,
      Sequenced.Change.outcome]

/-- A matched row goes through the step of its cell. -/
theorem applyMatched_sequenced {t : SilverRow} {held : Int} (guarded : c.Guarded)
    (same : t.paymentId = c.paymentId) (hheld : t.sourceLsn = some held) :
    silverMerge.applyMatched t c =
      (Sequenced.Cell.run (some (held, t)) c.sequenced.toList).map Prod.snd := by
  cases hl : c.sourceLsn with
  | none =>
      have older : (newer t c).holds = false := by simp [newer, Sql.lt, hheld, hl]
      have delete : c.op = some cdcDeleteOp := by
        rcases guarded with delete | ⟨_, l, hl'⟩
        · exact delete
        · cases hl.symm.trans hl'
      simp [applyMatched_delete delete, older, Change.sequenced, hl]
  | some l =>
      have isNewer : (newer t c).holds = true ↔ held < l := by simp [newer_holds hheld, hl]
      rcases guarded with delete | ⟨upsert, _⟩
      · by_cases hlt : held < l <;>
          simp [applyMatched_delete delete, isNewer, hlt, Change.sequenced, hl, delete,
            Sequenced.Cell.apply, Sequenced.Change.outcome]
      · by_cases hlt : held < l <;>
          simp [applyMatched_upsert upsert same, isNewer, hlt, Change.sequenced, hl,
            ne_delete_of_upsert upsert, Sequenced.Cell.apply, Sequenced.Change.outcome]

/-- The rows of one payment after a call that returns, from any table. -/
theorem rowsOf_afterBatch (h : (upsertToSilver sp batch).run tables = .ok () tables') (k : Int) :
    rowsOf tables'.silver k = silverMerge.mergedRows (rowsOf tables.silver k)
      ((batchWinner sp batch k).map Projected.toChange) :=
  silverMerge_keyedBy.rowsAt_exec (upsertToSilver_ok_iff.mp h).2.2
    (partition_buildChanges (some k))

/-- Every row after a call that returns is a row of the same payment from before, or
a winning upsert. -/
theorem mem_silver_afterBatch (h : (upsertToSilver sp batch).run tables = .ok () tables')
    {r : SilverRow} (hr : r ∈ tables'.silver) :
    (∃ t ∈ tables.silver, r.paymentId = t.paymentId) ∨ passesQuality r = true := by
  obtain ⟨_, valid, merged⟩ := upsertToSilver_ok_iff.mp h
  rcases silverMerge_keyedBy.mem_exec merged hr with kept | ⟨c, hc, hins⟩
  · exact .inl kept
  · obtain ⟨w, hw, rfl⟩ := mem_buildChanges.mp hc
    right
    rcases winner_op hw with delete | upsert
    · rw [insertFor_delete delete] at hins
      cases hins
    · rw [insertFor_upsert upsert] at hins
      exact Option.some.inj hins ▸ winner_passes valid hw (ne_delete_of_upsert upsert)

/-- The cell of `k` holds a row of `k`, under the row's LSN. -/
def Stamped (k : Int) (cell : Sequenced.Cell Int SilverRow) : Prop :=
  ∀ held, cell = some held → held.2.paymentId = some k ∧ held.2.sourceLsn = some held.1

theorem stamped_cellOf (silver : List SilverRow) (k : Int) : Stamped k (cellOf silver k) := by
  intro held h
  unfold cellOf at h
  obtain ⟨r, hr, hheld⟩ := Option.bind_eq_some_iff.mp h
  obtain ⟨l, hl, rfl⟩ := Option.map_eq_some_iff.mp hheld
  exact ⟨(mem_rowsOf.mp (List.mem_of_mem_head? hr)).2, hl⟩

theorem stamped_apply {cell : Sequenced.Cell Int SilverRow}
    {e : Sequenced.Change Int SilverRow} (stamped : Stamped k cell) (hc : c.sequenced = some e)
    (hk : c.paymentId = some k) : Stamped k (cell.apply e) := by
  have written : Stamped k e.outcome := by
    intro held h
    obtain ⟨l, hl, rfl⟩ := Option.map_eq_some_iff.mp hc
    obtain ⟨r, hr, rfl⟩ := Option.map_eq_some_iff.mp h
    split at hr
    · cases hr
    · cases hr
      exact ⟨hk, hl⟩
  cases cell with
  | none => exact written
  | some held =>
      by_cases hlt : held.1 < e.token
      · rw [Sequenced.Cell.apply_of_lt hlt]
        exact written
      · rw [Sequenced.Cell.apply_of_le (not_lt.mp hlt)]
        exact stamped

/-- A table whose rows of every payment are those of a stamped cell, and that has no
other rows, is keyed, and these are its cells. -/
theorem keyed_of_cells {σ : Int → Sequenced.Cell Int SilverRow}
    (identified : ∀ r ∈ silver, ∃ k, r.paymentId = some k)
    (rows : ∀ k, rowsOf silver k = ((σ k).map Prod.snd).toList)
    (stamped : ∀ k, Stamped k (σ k)) : Keyed silver ∧ ∀ k, cellOf silver k = σ k := by
  refine ⟨⟨identified, ?_, ?_⟩, ?_⟩
  · intro r hr
    obtain ⟨k, hk⟩ := identified r hr
    have hmem : r ∈ rowsOf silver k := mem_rowsOf.mpr ⟨hr, hk⟩
    rw [rows] at hmem
    obtain ⟨held, hheld, rfl⟩ := Option.map_eq_some_iff.mp (Option.mem_toList.mp hmem)
    exact ⟨held.1, (stamped k held hheld).2⟩
  · intro k
    rw [rows]
    exact Option.length_toList_le
  · intro k
    rw [cellOf, rows]
    cases hcell : σ k with
    | none => rfl
    | some held => simp [(stamped k held hcell).2]

/-- The rows of one payment of a keyed table after a call that returns. -/
private theorem rowsOf_keyed (keyed : Keyed tables.silver)
    (h : (upsertToSilver sp batch).run tables = .ok () tables') (k : Int) :
    rowsOf tables'.silver k =
      (((cellOf tables.silver k).run (changeAt sp batch k).toList).map Prod.snd).toList := by
  rw [rowsOf_afterBatch h, keyed.rowsOf_eq k, changeAt]
  cases hw : batchWinner sp batch k with
  | none => rfl
  | some w =>
      obtain ⟨r, _, _, hk⟩ := winner_mem hw
      have guarded : w.toChange.Guarded := by
        refine (winner_op hw).imp_right fun upsert => ⟨upsert, ?_⟩
        exact sourceLsn_of_passesQuality (winner_passes (upsertToSilver_ok_iff.mp h).2.1 hw
          (ne_delete_of_upsert upsert))
      cases hcell : cellOf tables.silver k with
      | none =>
          exact (Sql.Merge.mergedRows_nil _ _).trans
            (congrArg Option.toList (insertFor_sequenced guarded))
      | some held =>
          obtain ⟨hid, hheld⟩ := stamped_cellOf tables.silver k held hcell
          exact (Sql.Merge.mergedRows_singleton _ _ _).trans
            (congrArg Option.toList (applyMatched_sequenced guarded (hid.trans hk.symm) hheld))

/-- Both halves of the refinement, for a call that returns. -/
private theorem refines_of_ok (keyed : Keyed tables.silver)
    (h : (upsertToSilver sp batch).run tables = .ok () tables') :
    Keyed tables'.silver ∧
      ∀ k, cellOf tables'.silver k = (cellOf tables.silver k).run (changeAt sp batch k).toList := by
  apply keyed_of_cells
  · intro r hr
    rcases mem_silver_afterBatch h hr with ⟨t, ht, same⟩ | passes
    · exact same ▸ keyed.identified t ht
    · exact paymentId_of_passesQuality passes
  · exact rowsOf_keyed keyed h
  · intro k
    have stamped := stamped_cellOf tables.silver k
    unfold changeAt
    cases hw : batchWinner sp batch k with
    | none => exact stamped
    | some w =>
        obtain ⟨r, _, _, hk⟩ := winner_mem hw
        cases hc : w.toChange.sequenced with
        | none => simpa [hc] using stamped
        | some e => simpa [hc] using stamped_apply stamped hc hk

theorem afterBatch_of_ok (h : (upsertToSilver sp batch).run tables = .ok () tables') :
    afterBatch sp tables batch = tables' := by
  rw [afterBatch, h]

theorem Returns.run_eq (returns : Returns sp tables batch) :
    (upsertToSilver sp batch).run tables = .ok () (afterBatch sp tables batch) := by
  obtain ⟨tables', h⟩ := returns
  rw [afterBatch_of_ok h]
  exact h

/-- A call that raises leaves the silver table alone. -/
theorem afterBatch_silver_of_raises (raises : ¬Returns sp tables batch) :
    (afterBatch sp tables batch).silver = tables.silver := by
  unfold afterBatch
  cases h : (upsertToSilver sp batch).run tables with
  | ok _ tables' => exact absurd ⟨tables', h⟩ raises
  | error e tables' => exact upsertToSilver_error_silver h

/-- Every call keeps the invariant, whatever its records are. -/
theorem keyed_afterBatch (sp : SparkFunctions Value Double) (batch : MicroBatch Value)
    (keyed : Keyed tables.silver) : Keyed (afterBatch sp tables batch).silver := by
  by_cases returns : Returns sp tables batch
  · obtain ⟨tables', h⟩ := returns
    rw [afterBatch_of_ok h]
    exact (refines_of_ok keyed h).1
  · rw [afterBatch_silver_of_raises returns]
    exact keyed

/-- A call that returns applies, on every cell, the event the batch keeps. -/
theorem cellOf_afterBatch (keyed : Keyed tables.silver) (returns : Returns sp tables batch)
    (k : Int) : cellOf (afterBatch sp tables batch).silver k =
      (cellOf tables.silver k).run (changeAt sp batch k).toList := by
  obtain ⟨tables', h⟩ := returns
  rw [afterBatch_of_ok h]
  exact (refines_of_ok keyed h).2 k

section Runs

variable (sp : SparkFunctions Value Double)

/-- The tables after calling `_upsert_to_silver` on one micro-batch after the other. -/
def afterBatches (tables : Tables Value) (batches : List (MicroBatch Value)) : Tables Value :=
  Machine.run (afterBatch sp) tables batches

/-- No call of the run raises. -/
def AllReturn (tables : Tables Value) (batches : List (MicroBatch Value)) : Prop :=
  Machine.Along (afterBatch sp) (Returns sp) tables batches

end Runs

variable {batches : List (MicroBatch Value)}

theorem keyed_afterBatches (keyed : Keyed tables.silver) :
    Keyed (afterBatches sp tables batches).silver :=
  Machine.run_invariant (P := fun tables : Tables Value => Keyed tables.silver) keyed
    (fun _ batch keyed => keyed_afterBatch sp batch keyed) batches

/-- Over a run without exceptions every cell runs through the events the batches
keep. -/
theorem cellOf_afterBatches (keyed : Keyed tables.silver) (all : AllReturn sp tables batches)
    (k : Int) : cellOf (afterBatches sp tables batches).silver k =
      (cellOf tables.silver k).run (batches.filterMap fun batch => changeAt sp batch k) := by
  induction batches generalizing tables with
  | nil => rfl
  | cons batch batches ih =>
      obtain ⟨returns, rest⟩ := Machine.along_cons.mp all
      rw [afterBatches, Machine.run_cons]
      refine (ih (keyed_afterBatch sp batch keyed) rest).trans ?_
      rw [cellOf_afterBatch keyed returns]
      cases hc : changeAt sp batch k <;> simp [hc]

end PaymentsPlatform.Silver
