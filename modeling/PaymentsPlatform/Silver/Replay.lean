import PaymentsPlatform.Silver.Envelope
import PaymentsPlatform.Silver.Log

/-!
# Replaying a log

The recovery contract: reprocessing the change log from any point, with any cut into
micro-batches, ends where the first pass ended. A live payment is not even touched
on the way, since nothing in the log is newer than its row; a deleted payment may
come back during the replay, but the replay ends with its delete again.
-/

namespace PaymentsPlatform.Silver

variable {Value Double : Type} {sp : SparkFunctions Value Double}
variable {first replay : List (MicroBatch Value)} {log suffix : List (Record Value)}
variable {tables : Tables Value} {k : Int}

/-- The tokens of a suffix's events are those of events of the log. -/
private theorem token_of_suffix (hsuffix : suffix <:+ log)
    (hfirst : first.flatMap MicroBatch.records = log)
    (hreplay : replay.flatMap MicroBatch.records = suffix)
    {e : Sequenced.Change Int SilverRow}
    (he : e ∈ replay.flatMap fun batch => eventsAt sp batch k) :
    ∃ e' ∈ first.flatMap fun batch => eventsAt sp batch k, e'.token = e.token := by
  have logged : e.map SilverRow.ignoringIngestedAt ∈ loggedAt sp k suffix := by
    rw [← hreplay, ← map_flatMap_eventsAt]
    exact List.mem_map_of_mem he
  obtain ⟨older, rfl⟩ := hsuffix
  have inLog : e.map SilverRow.ignoringIngestedAt ∈ loggedAt sp k (older ++ suffix) := by
    rw [loggedAt_append]
    exact List.mem_append_right _ logged
  rw [← hfirst, ← map_flatMap_eventsAt] at inLog
  obtain ⟨e', he', same⟩ := List.mem_map.mp inLog
  have tokens := congrArg Sequenced.Change.token same
  exact ⟨e', he', tokens⟩

/-- A row that the first pass left is as new as everything in the log. -/
private theorem token_le_settled (ordered : InOrder sp log) (empty : tables.silver = [])
    (hfirst : first.flatMap MicroBatch.records = log) (hsuffix : suffix <:+ log)
    (hreplay : replay.flatMap MicroBatch.records = suffix) {held : Int × SilverRow}
    (hheld : cellOf (afterBatches sp tables first).silver k = some held) :
    ∀ e ∈ replay.flatMap fun batch => eventsAt sp batch k, e.token ≤ held.1 := by
  subst hfirst
  have keyed : Keyed tables.silver := empty ▸ keyed_nil
  have pass := ordered.cellOf_afterBatches_events keyed k
  rw [hheld, empty, cellOf_nil] at pass
  have newest := Sequenced.Cell.token_le_of_run (ordered.increasing_eventsAt k) pass.symm
  intro e he
  obtain ⟨e', he', same⟩ := token_of_suffix hsuffix rfl hreplay he
  exact same ▸ newest e' he'

/-- Apart from the ingestion times the replay leads every cell back. -/
private theorem replayed_cell (ordered : InOrder sp log) (empty : tables.silver = [])
    (hfirst : first.flatMap MicroBatch.records = log) (hsuffix : suffix <:+ log)
    (hreplay : replay.flatMap MicroBatch.records = suffix) (k : Int) :
    (cellOf (afterBatches sp (afterBatches sp tables first) replay).silver k).map
        (Prod.map id SilverRow.ignoringIngestedAt) =
      (cellOf (afterBatches sp tables first).silver k).map
        (Prod.map id SilverRow.ignoringIngestedAt) := by
  have keyed : Keyed tables.silver := empty ▸ keyed_nil
  have again : InOrder sp (replay.flatMap MicroBatch.records) :=
    hreplay ▸ ordered.sublist hsuffix.sublist
  subst hfirst
  rw [again.cellOf_afterBatches (keyed_afterBatches keyed), ordered.cellOf_afterBatches keyed,
    hreplay, empty, cellOf_nil, Option.map_none]
  have increasing := ordered.increasing k
  obtain ⟨older, hlog⟩ := hsuffix
  rw [← hlog, loggedAt_append] at increasing ⊢
  exact Sequenced.Cell.run_replay _ _ increasing

/-- Replaying any suffix of a log over the state the log led to, with any cuts, ends
in that state again, and never changes the row of a payment that is live in it. -/
theorem replay_converges {settled : Tables Value} (ordered : InOrder sp log)
    (empty : tables.silver = []) (hfirst : first.flatMap MicroBatch.records = log)
    (hsettled : afterBatches sp tables first = settled) (hsuffix : suffix <:+ log)
    (hreplay : replay.flatMap MicroBatch.records = suffix) :
    AllReturn sp tables first ∧ AllReturn sp settled replay ∧
      (afterBatches sp settled replay).silver.Perm settled.silver ∧
      ∀ before, before <+: replay → ∀ k r, r ∈ rowsOf settled.silver k →
        rowsOf (afterBatches sp settled before).silver k = [r] := by
  subst hsettled
  have again : InOrder sp (replay.flatMap MicroBatch.records) :=
    hreplay ▸ ordered.sublist hsuffix.sublist
  have keyed : Keyed (afterBatches sp tables first).silver :=
    keyed_afterBatches (empty ▸ keyed_nil)
  have stays : ∀ before, before <+: replay → ∀ k held,
      cellOf (afterBatches sp tables first).silver k = some held →
        cellOf (afterBatches sp (afterBatches sp tables first) before).silver k = some held := by
    rintro before ⟨rest, hrest⟩ k held hheld
    have part : InOrder sp (before.flatMap MicroBatch.records) := by
      rw [← hrest, List.flatMap_append] at again
      exact again.sublist (List.sublist_append_left _ _)
    rw [part.cellOf_afterBatches_events keyed, hheld]
    refine Sequenced.Cell.run_of_le fun e he => ?_
    apply token_le_settled ordered empty hfirst hsuffix hreplay hheld
    rw [← hrest, List.flatMap_append]
    exact List.mem_append_left _ he
  refine ⟨(hfirst ▸ ordered).allReturn _, again.allReturn _, ?_, ?_⟩
  · refine (keyed_afterBatches keyed).perm keyed fun k => ?_
    cases hheld : cellOf (afterBatches sp tables first).silver k with
    | some held => exact stays replay (List.prefix_refl _) k held hheld
    | none =>
        have cell := replayed_cell ordered empty hfirst hsuffix hreplay k
        rw [hheld, Option.map_none, Option.map_eq_none_iff] at cell
        exact cell
  · intro before hbefore k r hr
    rw [keyed.rowsOf_eq] at hr
    obtain ⟨held, hheld, rfl⟩ := Option.map_eq_some_iff.mp (Option.mem_toList.mp hr)
    rw [(keyed_afterBatches keyed).rowsOf_eq, stays before hbefore k held hheld]
    rfl

/-- The log applied in two batches, then replayed from its second record with another
cut, so that payment 2 comes back before it is deleted again. -/
theorem replay_converges_sample :
    (afterBatches sampleSpark
      (afterBatches sampleSpark ⟨[], []⟩
        [sampleBatch 1 (sampleLog.take 3), sampleBatch 2 (sampleLog.drop 3)])
      [sampleBatch 3 ((sampleLog.drop 1).take 1), sampleBatch 4 (sampleLog.drop 2)]).silver.Perm
    (afterBatches sampleSpark ⟨[], []⟩
      [sampleBatch 1 (sampleLog.take 3), sampleBatch 2 (sampleLog.drop 3)]).silver :=
  (replay_converges (show InOrder sampleSpark sampleLog by decide) rfl (by decide) rfl
    (show sampleLog.drop 1 <:+ sampleLog by decide) (by decide)).2.2.1

end PaymentsPlatform.Silver
