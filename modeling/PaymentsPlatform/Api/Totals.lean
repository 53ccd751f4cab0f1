import PaymentsPlatform.Api.Pagination
import PaymentsPlatform.Gold.Summary

/-!
# Adding up the pages

A client that follows `next_cursor` to the end has every row behind the summary of the same
filter: the two endpoints of `api/src/app.py` agree, whatever the page size, and a window
can be cut into two walks at any moment between its bounds.
-/

namespace PaymentsPlatform.Api

open PaymentsPlatform.Gold (window)

/-- The rows of all pages of a walk on a gold table that stays. -/
def allPages (codec : CursorCodec) (gold : Gold) (f : MetricsFilter) (limit : Nat) : List GoldRow :=
  walkedRows codec (fun _ => gold) f limit
    (Keyset.pages limit (matchingRows f gold.table).length)

/-- The request for the summary of a filter. -/
def summaryRequest (f : MetricsFilter) : Request := { filters := f, page := none }

/-- What a client makes of the rows it has. -/
def totals (rows : List GoldRow) : SummaryRow :=
  let payments := (rows.map GoldRow.paymentCount).sum
  { bucketCount := rows.length
    paymentCount := payments
    grossVolume := (rows.map GoldRow.grossVolume).sum
    authRate := if payments = 0 then none
      else some ((rows.map fun r => r.authRate * (r.paymentCount : ℚ)).sum / (payments : ℚ)) }

variable {codec : CursorCodec} {gold : Gold} {f : MetricsFilter} {limit : Nat}
variable {start mid end_ : DateTime} {rows rows' : List GoldRow} {r : GoldRow}

theorem totals_perm (h : rows.Perm rows') : totals rows = totals rows' := by
  simp only [totals, h.length_eq, (h.map GoldRow.paymentCount).sum_eq,
    (h.map GoldRow.grossVolume).sum_eq,
    (h.map fun r => r.authRate * (r.paymentCount : ℚ)).sum_eq]

theorem bypass_summary (accepted : checkWindow f = .ok ()) (gold : Gold) :
    bypass codec gold (summaryRequest f) =
      .ok (.summary { toSummaryRow := totals (matchingRows f gold.table)
                      snapshotId := gold.snapshotId }) := by
  have checked : (summaryRequest f).check codec = .ok { filters := f, page := none } := by
    simp only [Request.check, summaryRequest, accepted]
  simp only [bypass, checked, Checked.build, Checked.respond]
  rfl

/-- A walk to the end has the matching rows in order. -/
theorem allPages_eq (inverse : ∀ c, codec.decode (codec.encode c) = .ok c) (positive : 1 ≤ limit)
    (distinct : (gold.table.map GoldRow.sortKey).Nodup) (accepted : checkWindow f = .ok ()) :
    allPages codec gold f limit =
      (matchingRows f gold.table).insertionSort fun x y => x.sortKey ≤ y.sortKey :=
  (constant_walk inverse accepted positive distinct fun _ => rfl).2.2

theorem checkWindow_window : checkWindow (window f start end_) = .ok () ↔
    end_.offset.isSome = start.offset.isSome ∧ start.instant < end_.instant := by
  simp only [checkWindow, window, compareLe]
  by_cases comparable : end_.offset.isSome = start.offset.isSome
  · by_cases le : end_.instant ≤ start.instant
    · simp [comparable, le]
    · simp [comparable, le, not_le.mp le]
  · simp [comparable]

/-- The rows of a window, spelled out. -/
theorem mem_matchingRows_window {table : List GoldRow} :
    r ∈ matchingRows (window f start end_) table ↔
      r ∈ matchingRows { f with start := none, end_ := none } table ∧
        start.instant ≤ r.paymentHour.instant ∧ r.paymentHour.instant < end_.instant := by
  have starts : (Predicate.startsAt start).holds r = true ↔ start.instant ≤ r.paymentHour.instant :=
    decide_eq_true_iff
  have ends : (Predicate.endsBefore end_).holds r = true ↔ r.paymentHour.instant < end_.instant :=
    decide_eq_true_iff
  simp only [matchingRows, selectRows, List.mem_filter, filterPredicates, window, Option.map_some,
    Option.map_none, Option.toList_some, Option.toList_none, List.nil_append, List.all_append,
    List.all_cons, List.all_nil, Bool.and_eq_true, Bool.and_true, starts, ends]
  constructor
  · rintro ⟨hr, ⟨hwindow, hcountry⟩, hmethod⟩
    exact ⟨⟨hr, hcountry, hmethod⟩, hwindow⟩
  · rintro ⟨⟨hr, hcountry, hmethod⟩, hwindow⟩
    exact ⟨hr, ⟨hwindow, hcountry⟩, hmethod⟩

/-- The keys of an earlier window come before those of a later one. -/
theorem sortKey_lt_of_window {table : List GoldRow} {r' : GoldRow}
    (hr : r ∈ matchingRows (window f start mid) table)
    (hr' : r' ∈ matchingRows (window f mid end_) table) : r.sortKey < r'.sortKey := by
  obtain ⟨_, _, before⟩ := mem_matchingRows_window.mp hr
  obtain ⟨_, after, _⟩ := mem_matchingRows_window.mp hr'
  exact Prod.Lex.toLex_lt_toLex.mpr (.inl (before.trans_le after))

/-- The rows of a window are those of its two parts. -/
theorem matchingRows_append_perm (before : start.instant ≤ mid.instant)
    (after : mid.instant ≤ end_.instant) (table : List GoldRow) :
    (matchingRows (window f start mid) table ++ matchingRows (window f mid end_) table).Perm
      (matchingRows (window f start end_) table) := by
  classical
  rw [List.perm_iff_count]
  intro r
  have counted : ∀ f', (matchingRows f' table).count r =
      if r ∈ matchingRows f' table then table.count r else 0 := by
    intro f'
    split
    · rename_i hr
      exact List.count_filter (List.mem_filter.mp hr).2
    · rename_i hr
      exact List.count_eq_zero_of_not_mem hr
  rw [List.count_append, counted, counted, counted]
  simp only [mem_matchingRows_window]
  by_cases base : r ∈ matchingRows { f with start := none, end_ := none } table
  · by_cases first : r.paymentHour.instant < mid.instant
    · have past : ¬mid.instant ≤ r.paymentHour.instant := not_le.mpr first
      have inside : r.paymentHour.instant < end_.instant := first.trans_le after
      simp [base, first, past, inside]
    · have late : mid.instant ≤ r.paymentHour.instant := not_lt.mp first
      have inside : start.instant ≤ r.paymentHour.instant := before.trans late
      simp [base, first, late, inside]
  · simp [base]

/-- Rows in order before rows in order are in order. -/
theorem insertionSort_append {table : List GoldRow}
    (distinct : (table.map GoldRow.sortKey).Nodup) (before : start.instant ≤ mid.instant)
    (after : mid.instant ≤ end_.instant) :
    (matchingRows (window f start mid) table).insertionSort (fun x y => x.sortKey ≤ y.sortKey) ++
        (matchingRows (window f mid end_) table).insertionSort
          (fun x y => x.sortKey ≤ y.sortKey) =
      (matchingRows (window f start end_) table).insertionSort
        fun x y => x.sortKey ≤ y.sortKey := by
  have ordered : ∀ rows : List GoldRow,
      (rows.insertionSort fun x y => x.sortKey ≤ y.sortKey).Pairwise
        fun x y => x.sortKey ≤ y.sortKey := fun _ => List.pairwise_insertionSort _ _
  have same : ((matchingRows (window f start mid) table).insertionSort
        (fun x y => x.sortKey ≤ y.sortKey) ++
      (matchingRows (window f mid end_) table).insertionSort
        (fun x y => x.sortKey ≤ y.sortKey)).Perm
      ((matchingRows (window f start end_) table).insertionSort
        fun x y => x.sortKey ≤ y.sortKey) :=
    (((List.perm_insertionSort _ _).append (List.perm_insertionSort _ _)).trans
      (matchingRows_append_perm before after table)).trans (List.perm_insertionSort _ _).symm
  refine same.eq_of_pairwise (fun x y hx hy le ge => ?_) ?_ (ordered _)
  · have member : ∀ z ∈ (matchingRows (window f start end_) table).insertionSort
        (fun x y => x.sortKey ≤ y.sortKey), z ∈ table := fun z hz =>
      (List.mem_filter.mp ((List.perm_insertionSort _ _).mem_iff.mp hz)).1
    exact List.inj_on_of_nodup_map distinct (member x (same.mem_iff.mp hx)) (member y hy)
      (le_antisymm le ge)
  · refine List.pairwise_append.mpr ⟨ordered _, ordered _, fun x hx y hy => ?_⟩
    exact (sortKey_lt_of_window ((List.perm_insertionSort _ _).mem_iff.mp hx)
      ((List.perm_insertionSort _ _).mem_iff.mp hy)).le

/-- On every gold table with one row a key, for every filter that is accepted and every page
size, the rows of the whole walk add up to what `metrics_summary` answers for the filter, and
the walks of two adjacent windows one after the other are the walk of the whole window. -/
theorem pages_total (float : List Char → PyFloat) (text : CursorFault → String) (gold : Gold)
    (f : MetricsFilter) (limit : Nat) (positive : 1 ≤ limit)
    (distinct : (gold.table.map GoldRow.sortKey).Nodup) :
    (checkWindow f = .ok () →
      bypass (cursorCodec float text) gold (summaryRequest f) =
        .ok (.summary { toSummaryRow := totals (allPages (cursorCodec float text) gold f limit)
                        snapshotId := gold.snapshotId })) ∧
    ∀ start mid end_, checkWindow (window f start mid) = .ok () →
      checkWindow (window f mid end_) = .ok () →
        checkWindow (window f start end_) = .ok () ∧
        allPages (cursorCodec float text) gold (window f start mid) limit ++
            allPages (cursorCodec float text) gold (window f mid end_) limit =
          allPages (cursorCodec float text) gold (window f start end_) limit := by
  have inverse := decode_encode_cursorCodec float text
  refine ⟨fun accepted => ?_, fun start mid end_ first second => ?_⟩
  · rw [bypass_summary accepted, allPages_eq inverse positive distinct accepted,
      totals_perm (List.perm_insertionSort _ _)]
  · obtain ⟨comparable, before⟩ := checkWindow_window.mp first
    obtain ⟨comparable', after⟩ := checkWindow_window.mp second
    have whole : checkWindow (window f start end_) = .ok () :=
      checkWindow_window.mpr ⟨comparable'.trans comparable, before.trans after⟩
    rw [allPages_eq inverse positive distinct first, allPages_eq inverse positive distinct second,
      allPages_eq inverse positive distinct whole]
    exact ⟨whole, insertionSort_append distinct before.le after.le⟩

/-- One row a page over two rows of one hour. -/
theorem pages_total_twoMethods :
    bypass (cursorCodec (fun _ => .nan) fun _ => "") twoMethods
        (summaryRequest PaymentsPlatform.Gold.unfiltered) =
      .ok (.summary { toSummaryRow := totals (allPages (cursorCodec (fun _ => .nan) fun _ => "")
                        twoMethods PaymentsPlatform.Gold.unfiltered 1)
                      snapshotId := some "1" }) :=
  (pages_total (fun _ => .nan) (fun _ => "") twoMethods PaymentsPlatform.Gold.unfiltered 1
    (by decide) (by decide)).1 rfl

end PaymentsPlatform.Api
