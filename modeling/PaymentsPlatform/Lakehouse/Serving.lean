import PaymentsPlatform.Api.Totals
import PaymentsPlatform.Lakehouse.Delivery
import PaymentsPlatform.Silver.Contract

/-!
# From the source to the client

The whole path: the streams bring the topic to silver, `gold_metrics.py` rewrites gold from
it, and the API answers from gold. `liveRows` are the rows of the payments that are live in
the source. Once the streams have caught up they are silver, apart from the ingestion times
(`silver_perm_liveRows`), so that both endpoints answer with what the source says
(`served_answers`).
-/

namespace PaymentsPlatform.Lakehouse

open Bronze Silver
open Gold (GoldMetric Reads Summable groupKey goldMetrics goldSummary directSummary amountOf)
open Api (MetricsFilter GoldRow)

/-- The rows of the live payments of a history. -/
def liveRows {Double : Type} (sp : SparkFunctions String Double)
    (history : List (SourceEvent String)) : List SilverRow :=
  ((history.map SourceEvent.payment).dedup.filterMap (sourceTable history)).map fun e => e.row sp

variable {Double : Type} {py : Python} {sp : SparkFunctions String Double} {topic : Topic}
variable {partitionOf : Int → ℕ} {history : List (SourceEvent String)} {e : SourceEvent String}
variable {k : Int} {zone : Int → Int} {silver silver' : List SilverRow} {s : Delivery}

/-- Every event of a feed's history was emitted for. -/
theorem emitted_of_feed {records : List (Record String)} (feed : Feed sp history records)
    (he : e ∈ history) : Emitted sp e := by
  induction feed with
  | done => cases he
  | @event e' r history records _ emitted _ ih =>
      rcases List.mem_cons.mp he with rfl | he
      · exact emitted
      · exact ih he
  | noise _ _ ih => exact ih he

theorem Carries.emitted (carries : Carries py sp topic partitionOf history) (he : e ∈ history) :
    Emitted sp e :=
  emitted_of_feed (carries.feeds (partitionOf e.payment)) (List.mem_filter.mpr ⟨he, by simp⟩)

/-- A live payment has an event of the history that is no removal. -/
theorem mem_of_sourceTable (h : sourceTable history k = some e) :
    e ∈ history ∧ e.payment = k ∧ e.op ≠ .delete := by
  induction history using List.reverseRecOn with
  | nil => cases h
  | append_singleton history e' ih =>
      rw [sourceTable, List.foldl_append] at h
      change (sourceTable history).apply e' k = some e at h
      rw [SourceTable.apply] at h
      by_cases hk : k = e'.payment
      · subst hk
        rw [Function.update_self] at h
        split at h
        · cases h
        · rename_i kept
          obtain rfl := Option.some.inj h
          exact ⟨by simp, rfl, kept⟩
      · rw [Function.update_of_ne hk] at h
        obtain ⟨he, rest⟩ := ih h
        exact ⟨List.mem_append_left _ he, rest⟩

theorem row_paymentId (emitted : Emitted sp e) : (e.row sp).paymentId = some e.payment :=
  emitted.payment

/-- The rows of one payment among those of distinct ones. -/
theorem filter_filterMap {keys : List Int} (distinct : keys.Nodup)
    {table : Int → Option SilverRow} (keyed : ∀ k r, table k = some r → r.paymentId = some k) :
    Sql.partition SilverRow.paymentId (some k) (keys.filterMap table) =
      if k ∈ keys then (table k).toList else [] := by
  induction keys with
  | nil => rfl
  | cons k' keys ih =>
      obtain ⟨fresh, distinct⟩ := List.nodup_cons.mp distinct
      have rest := ih distinct
      cases hr : table k' with
      | none =>
          rw [List.filterMap_cons_none hr, rest]
          by_cases same : k = k'
          · subst same
            simp [fresh, hr]
          · simp [same]
      | some r =>
          have hid := keyed k' r hr
          rw [List.filterMap_cons_some hr, Sql.partition, List.filter_cons, ← Sql.partition, rest]
          by_cases same : k = k'
          · subst same
            simp [fresh, hr, hid]
          · simp [same, hid, Ne.symm same]

/-- The live rows of one payment. -/
theorem partition_liveRows (emitted : ∀ e ∈ history, Emitted sp e) (k : Int) :
    Sql.partition SilverRow.paymentId (some k) (liveRows sp history) =
      ((sourceTable history k).map fun e => e.row sp).toList := by
  have keyed : ∀ k r, (sourceTable history k).map (fun e => e.row sp) = some r →
      r.paymentId = some k := by
    intro k r hr
    obtain ⟨e, he, rfl⟩ := Option.map_eq_some_iff.mp hr
    obtain ⟨hmem, rfl, _⟩ := mem_of_sourceTable he
    exact row_paymentId (emitted e hmem)
  rw [liveRows, List.map_filterMap, filter_filterMap (List.nodup_dedup _) keyed]
  split
  · rfl
  · rename_i absent
    cases he : sourceTable history k with
    | none => rfl
    | some e =>
        obtain ⟨hmem, rfl, _⟩ := mem_of_sourceTable he
        exact absurd (List.mem_dedup.mpr (List.mem_map_of_mem hmem)) absent

/-- Once the streams have caught up, silver is the live rows of the source. -/
theorem silver_perm_liveRows (carries : Carries py sp topic partitionOf history)
    (good : Good py sp topic partitionOf s) (caughtUp : s.CaughtUp topic) :
    (s.tables.silver.map SilverRow.ignoringIngestedAt).Perm (liveRows sp history) := by
  have emitted : ∀ e ∈ history, Emitted sp e := fun e he => carries.emitted he
  refine Sql.perm_of_partition SilverRow.paymentId fun k => ?_
  have blank : Sql.partition SilverRow.paymentId k
      (s.tables.silver.map SilverRow.ignoringIngestedAt) =
        (Sql.partition SilverRow.paymentId k s.tables.silver).map SilverRow.ignoringIngestedAt := by
    rw [Sql.partition, List.filter_map]
    rfl
  rw [blank]
  cases k with
  | some k =>
      rw [partition_liveRows emitted, ← rowsOf, good.keyed.rowsOf_eq, map_ignoring_rows,
        good.cell_eq carries caughtUp k, Option.map_map]
      rfl
  | none =>
      have unnamed : ∀ {rows : List SilverRow}, (∀ r ∈ rows, ∃ k, r.paymentId = some k) →
          Sql.partition SilverRow.paymentId none rows = [] := by
        intro rows identified
        refine List.filter_eq_nil_iff.mpr fun r hr null => ?_
        obtain ⟨k, hk⟩ := identified r hr
        simp [hk] at null
      have live : ∀ r ∈ liveRows sp history, ∃ k, r.paymentId = some k := by
        intro r hr
        obtain ⟨e, he, rfl⟩ := List.mem_map.mp hr
        obtain ⟨k, _, hk⟩ := List.mem_filterMap.mp he
        exact ⟨_, row_paymentId (emitted e (mem_of_sourceTable hk).1)⟩
      rw [unnamed good.keyed.identified, unnamed live, List.map_nil]

/-- Summaries do not look at the ingestion times or at the order of the rows. -/
theorem directSummary_perm (same : (silver.map SilverRow.ignoringIngestedAt).Perm silver')
    (zone : Int → Int) (f : MetricsFilter) :
    directSummary zone silver f = directSummary zone silver' f := by
  have blank : directSummary zone (silver.map SilverRow.ignoringIngestedAt) f =
      directSummary zone silver f := by
    simp only [directSummary, List.filter_map, List.map_map, List.length_map, List.countP_map,
      List.map_eq_nil_iff, Function.comp_def]
    rfl
  have rows := same.filter fun r => Gold.satisfies f (groupKey zone r)
  have empty : (silver.map SilverRow.ignoringIngestedAt).filter
      (fun r => Gold.satisfies f (groupKey zone r)) = [] ↔
        silver'.filter (fun r => Gold.satisfies f (groupKey zone r)) = [] := by
    rw [← List.length_eq_zero_iff, rows.length_eq, List.length_eq_zero_iff]
  rw [← blank]
  simp only [directSummary, rows.length_eq, (rows.map amountOf).sum_eq, rows.countP_eq,
    ((rows.map (groupKey zone)).dedup).length_eq, empty]

/-- The rows of silver satisfy the rules, as the live rows do. -/
theorem quality_of_live (emitted : ∀ e ∈ history, Emitted sp e)
    (live : (silver.map SilverRow.ignoringIngestedAt).Perm (liveRows sp history)) :
    ∀ r ∈ silver, passesQuality r = true := by
  intro r hr
  obtain ⟨e, he, same⟩ := List.mem_map.mp (live.mem_iff.mp (List.mem_map_of_mem hr))
  obtain ⟨k, _, hk⟩ := List.mem_filterMap.mp he
  obtain ⟨hmem, _, upsert⟩ := mem_of_sourceTable hk
  have quality : passesQuality (e.row sp) = true :=
    validateUpserts_singleton.mp ((emitted e hmem).quality upsert)
  rw [same] at quality
  exact quality

/-- Silver is what gold needs, as long as gold can be read. -/
theorem summable_of_reads {rows : List GoldRow} {previous : List GoldMetric}
    (quality : ∀ r ∈ silver, passesQuality r = true)
    (reads : List.Forall₂ Reads rows (goldMetrics zone previous silver)) :
    Summable zone silver := by
  have valued : ∀ g ∈ goldMetrics zone previous silver, ∃ v, g.grossVolume = some v := by
    intro g hg
    obtain ⟨row, _, hread⟩ := exists_of_forall₂ reads hg
    exact ⟨row.grossVolume, hread.grossVolume⟩
  have amounts : ∀ r ∈ silver, ∃ a, r.amount = some a := by
    intro r hr
    obtain ⟨_, _, ⟨a, ha, _⟩, _⟩ := passesQuality_iff.mp (quality r hr)
    exact ⟨a, ha⟩
  refine ⟨fun r hr => ?_, fun r hr => ?_, fun r hr => ?_, fun r hr => ?_,
    Gold.fits_of_grossVolume amounts valued⟩ <;>
    obtain ⟨_, _, amount, _, method, _, country, ⟨created, _, hcreated, _⟩, _⟩ :=
      passesQuality_iff.mp (quality r hr)
  · exact ⟨created, hcreated⟩
  · obtain ⟨c, hc, _⟩ := country
    exact ⟨c, hc⟩
  · obtain ⟨m, hm, _⟩ := method
    exact ⟨m, hm⟩
  · exact amount

/-- A client that reads gold gets one row a key. -/
theorem nodup_of_reads {rows : List GoldRow} {table : List GoldMetric}
    (reads : List.Forall₂ Reads rows table) (distinct : (table.map GoldMetric.key).Nodup) :
    (rows.map GoldRow.sortKey).Nodup := by
  induction reads with
  | nil => exact List.nodup_nil
  | @cons row g rows table here rest ih =>
      obtain ⟨fresh, distinct⟩ := List.nodup_cons.mp distinct
      refine List.nodup_cons.mpr ⟨fun again => fresh ?_, ih distinct⟩
      obtain ⟨row', hrow', same⟩ := List.mem_map.mp again
      have flipped : List.Forall₂ (flip Reads) table rows := List.Forall₂.flip rest
      obtain ⟨g', hg', here'⟩ : ∃ g' ∈ table, Reads row' g' := exists_of_forall₂ flipped hrow'
      have key : g'.key = g.key := by
        obtain ⟨hour, rest⟩ := Prod.mk.inj (toLex.injective same)
        obtain ⟨country, method⟩ := Prod.mk.inj (toLex.injective rest)
        simp only [GoldMetric.key, here.paymentHour, here'.paymentHour, here.countryCode,
          here'.countryCode, here.paymentMethod, here'.paymentMethod, hour, country, method]
      exact key ▸ List.mem_map_of_mem hg'

/-- From the source to the client: after every run of the streams that has caught up, and
the gold job on the silver table it left, read without NULLs (so no sum is too large for its
column) and with exact averages, both endpoints answer every filter they accept with the
totals of the rows that are live in the source: `metrics_summary` in one response, and
`hourly_metrics` in the rows of its pages. -/
theorem served_answers (carries : Carries py sp topic partitionOf history) {actions : List Action}
    (contiguous : Machine.Along (Delivery.step py sp topic) (Contiguous py topic) .initial actions)
    (caughtUp : (Machine.run (Delivery.step py sp topic) .initial actions).CaughtUp topic)
    {previous : List GoldMetric} {gold : Api.Gold}
    (reads : List.Forall₂ Reads gold.table (goldMetrics zone previous
      (Machine.run (Delivery.step py sp topic) .initial actions).tables.silver))
    (float : List Char → PyFloat) (text : Api.CursorFault → String) {f : MetricsFilter}
    (accepted : Api.checkWindow f = .ok ()) {limit : ℕ} (positive : 1 ≤ limit) :
    Api.bypass (Api.cursorCodec float text) gold (Api.summaryRequest f) =
        .ok (.summary { toSummaryRow := directSummary zone (liveRows sp history) f
                        snapshotId := gold.snapshotId }) ∧
      Api.totals (Api.allPages (Api.cursorCodec float text) gold f limit) =
        directSummary zone (liveRows sp history) f := by
  have good := (Machine.always_of_along (good_initial py sp topic partitionOf)
    (fun _ _ good contiguous => good_step carries good contiguous) contiguous).final
  have live := silver_perm_liveRows carries good caughtUp
  have summable := summable_of_reads (quality_of_live (fun e he => carries.emitted he) live) reads
  have answer : Api.totals (Api.matchingRows f gold.table) =
      directSummary zone (liveRows sp history) f := by
    rw [← directSummary_perm live zone f, ← Gold.goldSummary_goldMetrics summable f,
      Gold.goldSummary_of_reads reads f]
    rfl
  have distinct := nodup_of_reads reads (Gold.nodup_goldMetrics _ _ _)
  have inverse := Api.decode_encode_cursorCodec float text
  rw [Api.bypass_summary accepted, answer, Api.allPages_eq inverse positive distinct accepted,
    Api.totals_perm (List.perm_insertionSort _ _)]
  exact ⟨rfl, answer⟩

theorem epochDay_valid : (1 ≤ 1970 ∧ 1970 ≤ 9999) ∧ (1 ≤ 1 ∧ 1 ≤ 12) ∧
    1 ≤ 1 ∧ 1 ≤ daysInMonth 1970 1 := by decide

theorem secondHour_valid : 1 < 24 ∧ 0 < 60 ∧ 0 < 60 ∧ 0 < 1000000 := by decide

/-- The second hour of the epoch. -/
def secondHour : DateTime :=
  ⟨⟨1970, 1, 1, epochDay_valid⟩, 1, 0, 0, 0, none, secondHour_valid, DateTime.midnight_validOffset⟩

/-- Gold with the only live payment of the sample. -/
def sampleGold : Api.Gold where
  snapshotId := some "1"
  table := [⟨secondHour, "US", "card", 1, 10000, 0⟩]

theorem sampleGold_reads : List.Forall₂ Reads sampleGold.table (goldMetrics (fun _ => 0) []
    (Machine.run (Delivery.step samplePython sampleTextSpark sampleTopic) .initial
      sampleActions).tables.silver) := by
  have gold : goldMetrics (fun _ => 0) []
      (Machine.run (Delivery.step samplePython sampleTextSpark sampleTopic) .initial
        sampleActions).tables.silver =
      [⟨some 3600000000, some "US", some "card", 1, some 10000, some 0, 0⟩] := by
    decide +kernel
  rw [gold]
  exact .cons ⟨by decide, rfl, rfl, rfl, rfl, rfl⟩ .nil

theorem served_answers_sample :
    Api.bypass (Api.cursorCodec (fun _ => .nan) fun _ => "") sampleGold
        (Api.summaryRequest Gold.unfiltered) =
      .ok (.summary { toSummaryRow := ⟨1, 1, 10000, some 0⟩, snapshotId := some "1" }) :=
  (served_answers carries_sample sampleRun.2.1
    ⟨sampleRun.2.2.1, sampleRun.2.2.2.1, sampleRun.2.2.2.2⟩ sampleGold_reads
    (fun _ => .nan) (fun _ => "") (show Api.checkWindow Gold.unfiltered = .ok () from rfl)
    (le_refl 1)).1.trans (by decide +kernel)

end PaymentsPlatform.Lakehouse
