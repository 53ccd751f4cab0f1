import PaymentsPlatform.Api.Pagination
import PaymentsPlatform.Api.Tokens
import PaymentsPlatform.Machine.Run

/-!
# The windows of requests

`hourly_metrics` and `metrics_summary` of `api/src/app.py` over a repository that answers
its queries with any gold rows, other ones for every request. Both compare the bounds of
the window before they do anything else, and a timestamp with an offset cannot be compared
to one without: on these windows a `TypeError` escapes, and on all others a request is
judged by the instants of its bounds (`answer_judged_iff`). That nothing else is raised
needs the cache to have rows under the keys of pages and totals under those of summaries,
whatever was asked before.
-/

namespace PaymentsPlatform.Api

/-- The answers of a `GoldRepository` to its queries. -/
structure Repository where
  currentSnapshot : Option String
  hourlyRows : MetricsFilter → Nat → Option RawCursor → List GoldRow
  summaryRows : MetricsFilter → List SummaryRow

/-- `summary_row`: the first row, or the totals of no rows. -/
def Repository.summaryRow (repository : Repository) (f : MetricsFilter) : SummaryRow :=
  (repository.summaryRows f).head?.getD
    { bucketCount := 0, paymentCount := 0, grossVolume := 0, authRate := none }

/-- The page of some rows; a row beyond the limit tells that there is a next one. -/
def hourlyPage (limit : Nat) (snapshotId : Option String) (rows : List GoldRow) :
    HourlyMetricsPage :=
  let page := rows.take limit
  let nextCursor :=
    if limit < rows.length then
      page.getLast?.map fun last => encodeCursor
        { paymentHour := last.paymentHour, countryCode := last.countryCode,
          paymentMethod := last.paymentMethod }
    else none
  { data := page, nextCursor := nextCursor, snapshotId := snapshotId }

section Answer

variable (float : List Char → PyFloat) (text : CursorFault → String)

/-- The cursor parameter, as it is decoded. -/
def decodeParameter : Option String → Except ApiError (Option RawCursor)
  | none => .ok none
  | some token =>
      match decodeCursor float token with
      | .ok after => .ok (some after)
      | .error fault => .error (.badRequest ("malformed cursor: " ++ text fault))

/-- The answer to a request for a page, in which the columns of totals would not be found. -/
def answerHourly (repository : Repository) (cache : Cache) (f : MetricsFilter) (p : PageRequest) :
    Except ApiError Response × Cache :=
  match checkWindow f with
  | .error e => (.error e, cache)
  | .ok () =>
      match decodeParameter float text p.cursor with
      | .error e => (.error e, cache)
      | .ok after =>
          let key := cacheKey "hourly" f (some p.limit) p.cursor
          let rows := repository.hourlyRows f p.limit after
          match cached cache key repository.currentSnapshot (.rows rows) with
          | (.rows rows, cache) =>
              (.ok (.page (hourlyPage p.limit repository.currentSnapshot rows)), cache)
          | (.totals _, cache) => (.error .typeError, cache)

/-- The endpoint of the totals, which has no cursor to decode. -/
def answerSummary (repository : Repository) (cache : Cache) (f : MetricsFilter) :
    Except ApiError Response × Cache :=
  match checkWindow f with
  | .error e => (.error e, cache)
  | .ok () =>
      let key := cacheKey "summary" f none none
      let row := repository.summaryRow f
      match cached cache key repository.currentSnapshot (.totals row) with
      | (.totals row, cache) =>
          (.ok (.summary { toSummaryRow := row, snapshotId := repository.currentSnapshot }), cache)
      | (.rows _, cache) => (.error .typeError, cache)

/-- A request to either endpoint. -/
def answer (repository : Repository) (cache : Cache) (r : Request) :
    Except ApiError Response × Cache :=
  match r.page with
  | some p => answerHourly float text repository cache r.filters p
  | none => answerSummary repository cache r.filters

/-- The cache after some requests, each with the answers that the repository gave then. -/
def cacheAfter (capacity : Nat) (history : List (Repository × Request)) : Cache :=
  Machine.run (fun cache e => (answer float text e.1 cache e.2).2) (.empty capacity) history

end Answer

/-- Both bounds have an offset, or neither has one, if they are both given. -/
def Comparable (f : MetricsFilter) : Prop :=
  ∀ start ∈ f.start, ∀ end_ ∈ f.end_, start.offset.isSome = end_.offset.isSome

/-- Both bounds are given, and the end is not after the start. -/
def Inverted (f : MetricsFilter) : Prop :=
  ∃ start ∈ f.start, ∃ end_ ∈ f.end_, ¬start.instant < end_.instant

/-- There is a response or a 400, and a 400 exactly for an inverted window. -/
structure Judged (f : MetricsFilter) (result : Except ApiError Response) : Prop where
  returns : (∃ response, result = .ok response) ∨ ∃ detail, result = .error (.badRequest detail)
  inverted : (∃ detail, result = .error (.badRequest detail)) ↔ Inverted f

/-- The cursor of the request is absent, or `encode_cursor` made it. -/
def Issued (r : Request) : Prop :=
  ∀ p ∈ r.page, ∀ token ∈ p.cursor, ∃ c : PyCursor, token = c.encode

variable {float : List Char → PyFloat} {text : CursorFault → String} {f : MetricsFilter}
variable {cache : Cache} {key : String} {value : Value} {r : Request}

section Window

theorem compareLe_eq {a b : DateTime} (h : a.offset.isSome = b.offset.isSome) :
    compareLe a b = .ok (decide (a.instant ≤ b.instant)) := if_pos h

/-- On comparable bounds the check fails exactly on an inverted window, -/
theorem checkWindow_of_comparable (comparable : Comparable f) :
    Inverted f ∧ checkWindow f = .error (.badRequest "end must be after start") ∨
      ¬Inverted f ∧ checkWindow f = .ok () := by
  unfold checkWindow
  split
  · rename_i start end_ hstart hend
    have inverted : Inverted f ↔ end_.instant ≤ start.instant := by
      simp [Inverted, hstart, hend]
    rw [inverted, compareLe_eq (comparable start hstart end_ hend).symm]
    by_cases h : end_.instant ≤ start.instant <;> simp [h]
  · rename_i open_
    refine .inr ⟨?_, rfl⟩
    rintro ⟨start, hstart, end_, hend, -⟩
    exact open_ start end_ hstart hend

/-- and on others with a `TypeError`. -/
theorem checkWindow_of_not_comparable (mixed : ¬Comparable f) :
    checkWindow f = .error .typeError := by
  unfold Comparable at mixed
  push Not at mixed
  obtain ⟨start, hstart, end_, hend, mixed⟩ := mixed
  rw [checkWindow, Option.mem_def.mp hstart, Option.mem_def.mp hend]
  simp only [compareLe, if_neg mixed.symm]

end Window

section Kinds

/-- Rows are under the keys of pages, totals under those of summaries. -/
def OfKind (key : String) : Value → Prop
  | .rows _ => key.toList.head? = some 'h'
  | .totals _ => key.toList.head? = some 's'

def CacheTyped (cache : Cache) : Prop := ∀ k v, (k, v) ∈ cache.entries.entries → OfKind k v

/-- A lookup that finds nothing puts what it was given. -/
theorem CacheTyped.cached (h : CacheTyped cache) (kind : OfKind key value)
    (snapshotId : Option String) :
    OfKind key (Api.cached cache key snapshotId value).1 ∧
      CacheTyped (Api.cached cache key snapshotId value).2 := by
  have after : CacheTyped (cache.get snapshotId key).2 := fun k v hmem =>
    h k v (SnapshotCache.mem_get hmem).2
  unfold Api.cached
  split
  · rename_i hit cache' heq
    rw [heq] at after
    exact ⟨h key hit (SnapshotCache.get_some (by rw [heq])).2, after⟩
  · rename_i cache' heq
    rw [heq] at after
    refine ⟨kind, fun k v hmem => ?_⟩
    rcases SnapshotCache.mem_put hmem with hnew | ⟨-, hold⟩
    · obtain ⟨rfl, rfl⟩ := Prod.mk.inj hnew
      exact kind
    · exact after k v hold

theorem cacheTyped_empty (capacity : Nat) : CacheTyped (.empty capacity) := fun _ _ h => by cases h

variable {limit : Option Nat} {cursor : Option String} {rows : List GoldRow} {row : SummaryRow}

private theorem head?_cacheKey (c : Char) (rest : List Char) :
    (cacheKey (String.ofList (c :: rest)) f limit cursor).toList.head? = some c := by
  rw [cacheKey, Text.join_cons (by simp), String.toList_append, String.toList_append,
    String.toList_ofList]
  rfl

theorem ofKind_hourly : OfKind (cacheKey "hourly" f limit cursor) (.rows rows) :=
  head?_cacheKey 'h' "ourly".toList

theorem ofKind_summary : OfKind (cacheKey "summary" f limit cursor) (.totals row) :=
  head?_cacheKey 's' "ummary".toList

/-- There are no totals under the key of a page, -/
theorem not_ofKind_hourly : ¬OfKind (cacheKey "hourly" f limit cursor) (.totals row) := by
  intro h
  cases h.symm.trans (head?_cacheKey 'h' "ourly".toList)

/-- and no rows under that of a summary. -/
theorem not_ofKind_summary : ¬OfKind (cacheKey "summary" f limit cursor) (.rows rows) := by
  intro h
  cases h.symm.trans (head?_cacheKey 's' "ummary".toList)

end Kinds

section Answers

variable {repository : Repository} {p : PageRequest}

theorem answerHourly_typed (h : CacheTyped cache) :
    CacheTyped (answerHourly float text repository cache f p).2 ∧
      (checkWindow f = .ok () → (∃ after, decodeParameter float text p.cursor = .ok after) →
        ∃ response, (answerHourly float text repository cache f p).1 = .ok response) := by
  unfold answerHourly
  cases checkWindow f with
  | error e => exact ⟨h, fun ok => by cases ok⟩
  | ok =>
      cases decodeParameter float text p.cursor with
      | error e => exact ⟨h, fun _ ⟨_, ok⟩ => by cases ok⟩
      | ok after =>
          have filled : OfKind (cacheKey "hourly" f (some p.limit) p.cursor)
              (.rows (repository.hourlyRows f p.limit after)) := ofKind_hourly
          obtain ⟨kind, typed⟩ := h.cached filled repository.currentSnapshot
          simp only
          split
          · rename_i rows cache' heq
            rw [heq] at typed
            exact ⟨typed, fun _ _ => ⟨_, rfl⟩⟩
          · rename_i row cache' heq
            rw [heq] at kind
            exact absurd kind not_ofKind_hourly

theorem answerSummary_typed (h : CacheTyped cache) :
    CacheTyped (answerSummary repository cache f).2 ∧
      (checkWindow f = .ok () →
        ∃ response, (answerSummary repository cache f).1 = .ok response) := by
  unfold answerSummary
  cases checkWindow f with
  | error e => exact ⟨h, fun ok => by cases ok⟩
  | ok =>
      have filled : OfKind (cacheKey "summary" f none none)
          (.totals (repository.summaryRow f)) := ofKind_summary
      obtain ⟨kind, typed⟩ := h.cached filled repository.currentSnapshot
      simp only
      split
      · rename_i row cache' heq
        rw [heq] at typed
        exact ⟨typed, fun _ => ⟨_, rfl⟩⟩
      · rename_i rows cache' heq
        rw [heq] at kind
        exact absurd kind not_ofKind_summary

theorem answer_typed (h : CacheTyped cache) :
    CacheTyped (answer float text repository cache r).2 := by
  unfold answer
  split
  · exact (answerHourly_typed h).1
  · exact (answerSummary_typed h).1

theorem cacheAfter_typed (float : List Char → PyFloat) (text : CursorFault → String)
    (capacity : Nat) (history : List (Repository × Request)) :
    CacheTyped (cacheAfter float text capacity history) :=
  Machine.run_invariant (cacheTyped_empty capacity) (fun _ _ h => answer_typed h) history

/-- An issued cursor is decoded. -/
theorem decodeParameter_issued {cursor : Option String}
    (issued : ∀ token ∈ cursor, ∃ c : PyCursor, token = c.encode) :
    ∃ after, decodeParameter float text cursor = .ok after := by
  cases cursor with
  | none => exact ⟨none, rfl⟩
  | some token =>
      obtain ⟨c, rfl⟩ := issued token rfl
      exact ⟨some c.joined.raw, by rw [decodeParameter, decodeCursor_encode]⟩

/-- A window that passes its check is answered, -/
theorem answer_ok (h : CacheTyped cache) (issued : Issued r) (ok : checkWindow r.filters = .ok ()) :
    ∃ response, (answer float text repository cache r).1 = .ok response := by
  unfold answer
  split
  · rename_i p hpage
    exact (answerHourly_typed h).2 ok (decodeParameter_issued (issued p hpage))
  · exact (answerSummary_typed h).2 ok

/-- and what it raises is raised. -/
theorem answer_error {e : ApiError} (raised : checkWindow r.filters = .error e) :
    (answer float text repository cache r).1 = .error e := by
  unfold answer
  split
  · rw [answerHourly, raised]
  · rw [answerSummary, raised]

/-- After any requests, a request with an issued cursor is judged by its window exactly when
its bounds are comparable. -/
theorem answer_judged_iff (float : List Char → PyFloat) (text : CursorFault → String)
    (capacity : Nat) (history : List (Repository × Request)) (repository : Repository)
    (r : Request) (issued : Issued r) :
    Judged r.filters (answer float text repository (cacheAfter float text capacity history) r).1 ↔
      Comparable r.filters := by
  have typed := cacheAfter_typed float text capacity history
  by_cases comparable : Comparable r.filters
  · refine iff_of_true ?_ comparable
    rcases checkWindow_of_comparable comparable with ⟨inverted, raised⟩ | ⟨ordered, ok⟩
    · rw [answer_error raised]
      exact ⟨.inr ⟨_, rfl⟩, iff_of_true ⟨_, rfl⟩ inverted⟩
    · have answered : ∃ response, (answer float text repository
          (cacheAfter float text capacity history) r).1 = .ok response := answer_ok typed issued ok
      obtain ⟨response, hresponse⟩ := answered
      rw [hresponse]
      exact ⟨.inl ⟨response, rfl⟩, iff_of_false (fun ⟨_, h⟩ => by cases h) ordered⟩
  · refine iff_of_false (fun judged => ?_) comparable
    have raised := judged.returns
    rw [answer_error (checkWindow_of_not_comparable comparable)] at raised
    rcases raised with ⟨_, h⟩ | ⟨_, h⟩ <;> cases h

/-- A page behind a cursor, of a window from an hour in UTC on. -/
def pairRequest : Request :=
  { filters := ⟨some sampleHour, none, none, none⟩
    page := some { limit := 2, cursor := some pairCursor.encode } }

theorem answer_judged_iff_pairRequest :
    Judged pairRequest.filters (answer (fun _ => .nan) (fun _ => "")
      ⟨none, fun _ _ _ => [], fun _ => []⟩ (cacheAfter (fun _ => .nan) (fun _ => "") 1 [])
        pairRequest).1 := by
  have issued : Issued pairRequest := by
    intro p hp token htoken
    obtain rfl := Option.some.inj hp
    exact ⟨pairCursor, (Option.some.inj htoken).symm⟩
  refine (answer_judged_iff _ _ 1 [] _ pairRequest issued).mpr ?_
  rintro start - end_ ⟨⟩

/-- A window that starts without an offset and ends with one. -/
def mixedWindow : MetricsFilter := ⟨some (.midnight .sample), some sampleHour, none, none⟩

/-- A request for its summary ends in a `TypeError`. -/
theorem mixedWindow_raises :
    (answer (fun _ => .nan) (fun _ => "") ⟨none, fun _ _ _ => [], fun _ => []⟩
        (cacheAfter (fun _ => .nan) (fun _ => "") 1 []) ⟨mixedWindow, none⟩).1 =
      .error .typeError := by
  refine answer_error (checkWindow_of_not_comparable fun comparable => ?_)
  exact absurd (comparable _ rfl _ rfl) (by decide)

end Answers

section Gold

/-- The answers on a gold table. -/
def Gold.repository (gold : Gold) : Repository where
  currentSnapshot := gold.snapshotId
  hourlyRows f limit after := hourlyRows gold.table f (limit + 1) (after.bind RawCursor.typed)
  summaryRows f := [summaryRow gold.table f]

/-- On a gold table, requests with a cursor of texts are served as by `serve`. -/
theorem answer_gold (gold : Gold)
    (issued : ∀ p ∈ r.page, ∀ token ∈ p.cursor, ∃ c : Cursor, token = encodeCursor c) :
    answer float text gold.repository cache r =
      serve (cursorCodec float text) gold cache r := by
  obtain ⟨f, page⟩ := r
  cases page with
  | none =>
      rcases hcached : cached cache (cacheKey "summary" f none none) gold.snapshotId
        (.totals (summaryRow gold.table f)) with ⟨value, cache'⟩
      have answered : cached cache (cacheKey "summary" f none none)
          gold.repository.currentSnapshot (.totals (gold.repository.summaryRow f)) =
        (value, cache') := hcached
      have served : cached cache (Checked.mk f none).key gold.snapshotId
          ((Checked.mk f none).build gold.table) = (value, cache') := hcached
      simp only [answer, answerSummary, answered, serve, Request.check]
      cases checkWindow f with
      | error e => rfl
      | ok =>
          simp only [served]
          cases value <;> rfl
  | some p =>
      obtain ⟨after, decoded, codec⟩ : ∃ after : Option RawCursor,
          decodeParameter float text p.cursor = .ok after ∧
            decodeAfter (cursorCodec float text) p.cursor = .ok (after.bind RawCursor.typed) := by
        cases hcursor : p.cursor with
        | none => exact ⟨none, rfl, rfl⟩
        | some token =>
            obtain ⟨c, rfl⟩ := issued p rfl token hcursor
            have inverse := decode_encode_cursorCodec float text c
            refine ⟨some c.raw, by rw [decodeParameter, decodeCursor_encodeCursor], ?_⟩
            rw [show encodeCursor c = (cursorCodec float text).encode c from rfl, decodeAfter,
              inverse, Option.bind_some, typed_raw]
      rcases hcached : cached cache (cacheKey "hourly" f (some p.limit) p.cursor) gold.snapshotId
        (.rows (hourlyRows gold.table f (p.limit + 1) (after.bind RawCursor.typed)))
        with ⟨value, cache'⟩
      have answered : cached cache (cacheKey "hourly" f (some p.limit) p.cursor)
          gold.repository.currentSnapshot (.rows (gold.repository.hourlyRows f p.limit after)) =
        (value, cache') := hcached
      have served : cached cache
          (Checked.mk f (some { p with after := after.bind RawCursor.typed })).key gold.snapshotId
          ((Checked.mk f (some { p with after := after.bind RawCursor.typed })).build gold.table) =
        (value, cache') := hcached
      simp only [answer, answerHourly, decoded, answered, serve, Request.check, codec]
      cases checkWindow f with
      | error e => rfl
      | ok =>
          simp only [served]
          cases value <;> rfl

end Gold

end PaymentsPlatform.Api
