import PaymentsPlatform.Api.Cursor
import PaymentsPlatform.Sql.Keyset

/-!
# Walking the pages

A client asks `hourly_metrics` for the first page and then follows `next_cursor`, each
request being answered from gold as it is then. The walk is a keyset walk over the rows
that match the filter, its positions being what the cursors are decoded to
(`walk_position`), so that it loses and repeats nothing (`paginates`).
-/

namespace PaymentsPlatform.Api

/-- A request for a page. -/
def pageRequest (f : MetricsFilter) (limit : Nat) (cursor : Option String) : Request where
  filters := f
  page := some { limit := limit, cursor := cursor }

/-- The page of a response. -/
def Response.page? : Except ApiError Response → Option HourlyMetricsPage
  | .ok (.page p) => some p
  | _ => none

/-- The rows of a table that match a filter. -/
def matchingRows (f : MetricsFilter) (table : List GoldRow) : List GoldRow :=
  selectRows table (filterPredicates f)

section Walk

variable (codec : CursorCodec) (golds : Nat → Gold) (f : MetricsFilter) (limit : Nat)

/-- The cursor of a request of the walk, as long as there is one. -/
def cursorAt : Nat → Option (Option String)
  | 0 => some none
  | i + 1 => (cursorAt i).bind fun cursor =>
      ((Response.page? (bypass codec (golds i) (pageRequest f limit cursor))).bind
        HourlyMetricsPage.nextCursor).map some

/-- A page of the walk. -/
def pageAt (i : Nat) : Option HourlyMetricsPage :=
  (cursorAt codec golds f limit i).bind fun cursor =>
    Response.page? (bypass codec (golds i) (pageRequest f limit cursor))

/-- The rows of the first pages. -/
def walkedRows (n : Nat) : List GoldRow :=
  (List.range n).flatMap fun i =>
    ((pageAt codec golds f limit i).map HourlyMetricsPage.data).getD []

end Walk

/-- The cursor of a row. -/
def GoldRow.cursor (r : GoldRow) : Cursor := ⟨r.paymentHour, r.countryCode, r.paymentMethod⟩

variable {codec : CursorCodec} {golds : Nat → Gold} {f : MetricsFilter} {limit : Nat}
variable {table : List GoldRow} {after : Option Cursor}

/-- The keyset predicate keeps the rows behind the cursor. -/
theorem after_holds {c : Cursor} {r : GoldRow} :
    (Predicate.after c).holds r = true ↔ c.sortKey < r.sortKey := by
  simp only [Predicate.holds, decide_eq_true_eq, Cursor.sortKey, GoldRow.sortKey,
    Prod.Lex.toLex_lt_toLex]
  constructor
  · rintro (hour | ⟨hour, country⟩ | ⟨hour, country, method⟩)
    · exact .inl hour
    · exact .inr ⟨hour.symm, .inl country⟩
    · exact .inr ⟨hour.symm, .inr ⟨country.symm, method⟩⟩
  · rintro (hour | ⟨hour, country | ⟨country, method⟩⟩)
    · exact .inl hour
    · exact .inr (.inl ⟨hour.symm, country⟩)
    · exact .inr (.inr ⟨hour.symm, country.symm, method⟩)

/-- A page query orders the matching rows behind the cursor. -/
theorem hourlyRows_eq (table : List GoldRow) (f : MetricsFilter) (n : Nat)
    (after : Option Cursor) : hourlyRows table f n after =
      (Keyset.behind GoldRow.sortKey (after.map Cursor.sortKey) (matchingRows f table)).take n := by
  have selected : selectRows table (pagePredicates f after) =
      (matchingRows f table).filter fun r =>
        decide (∀ k ∈ after.map Cursor.sortKey, k < r.sortKey) := by
    rw [matchingRows, selectRows, selectRows, List.filter_filter]
    refine List.filter_congr fun r _ => ?_
    rw [pagePredicates, List.all_append, Bool.and_comm]
    congr 1
    cases after with
    | none => simp
    | some c =>
        rw [Bool.eq_iff_iff]
        simp [after_holds]
  rw [hourlyRows, selected, Keyset.behind]

/-- The page behind a cursor. -/
def pageBehind (codec : CursorCodec) (gold : Gold) (f : MetricsFilter) (limit : Nat)
    (after : Option Cursor) : HourlyMetricsPage :=
  let position := after.map Cursor.sortKey
  let rows := matchingRows f gold.table
  let page := Keyset.page GoldRow.sortKey limit position rows
  { data := page
    nextCursor :=
      if limit < (Keyset.behind GoldRow.sortKey position rows).length then
        page.getLast?.map fun last => codec.encode last.cursor
      else none
    snapshotId := gold.snapshotId }

/-- The response to a request whose cursor is decoded. -/
theorem bypass_page (window : checkWindow f = .ok ()) {cursor : Option String}
    (decoded : decodeAfter codec cursor = .ok after) (gold : Gold) :
    bypass codec gold (pageRequest f limit cursor) =
      .ok (.page (pageBehind codec gold f limit after)) := by
  have checked : (pageRequest f limit cursor).check codec =
      .ok { filters := f, page := some { limit := limit, cursor := cursor, after := after } } := by
    simp only [Request.check, pageRequest, window, decoded]
  have first : ∀ rows : List GoldRow, (rows.take (limit + 1)).take limit = rows.take limit :=
    fun rows => by rw [List.take_take, min_eq_left (Nat.le_succ limit)]
  have more : ∀ rows : List GoldRow, limit < (rows.take (limit + 1)).length ↔ limit < rows.length :=
    fun rows => by rw [List.length_take]; omega
  simp only [bypass, checked, Checked.build, Checked.respond, hourlyRows_eq, first, more]
  rfl

/-- A refused window has no page. -/
theorem bypass_refused {e : ApiError} (window : checkWindow f = .error e) (gold : Gold)
    (cursor : Option String) : bypass codec gold (pageRequest f limit cursor) = .error e := by
  simp only [bypass, Request.check, pageRequest, window]

/-- The cursor of a request and the position of a keyset walk. -/
inductive AtPosition (codec : CursorCodec) : Option (Option String) → Option (Option SortKey) → Prop
  | ended : AtPosition codec none none
  | reading {cursor : Option String} {after : Option Cursor} :
      decodeAfter codec cursor = .ok after →
        AtPosition codec (some cursor) (some (after.map Cursor.sortKey))

section Simulation

variable (inverse : ∀ c, codec.decode (codec.encode c) = .ok c)

include inverse

/-- The cursor of the next page is at the next position. -/
theorem atPosition_next (gold : Gold) (f : MetricsFilter) (limit : Nat) (after : Option Cursor) :
    AtPosition codec ((pageBehind codec gold f limit after).nextCursor.map some)
      ((Keyset.next GoldRow.sortKey limit (after.map Cursor.sortKey)
        (matchingRows f gold.table)).map some) := by
  simp only [pageBehind, Keyset.next]
  split
  · cases (Keyset.page GoldRow.sortKey limit (after.map Cursor.sortKey)
        (matchingRows f gold.table)).getLast? with
    | none => exact .ended
    | some last =>
        have decoded : decodeAfter codec (some (codec.encode last.cursor)) =
            .ok (some last.cursor) := by
          rw [decodeAfter, inverse]
        exact AtPosition.reading decoded
  · exact .ended

/-- A walk over gold is a keyset walk over the matching rows. -/
theorem walk_position (window : checkWindow f = .ok ()) (i : Nat) :
    AtPosition codec (cursorAt codec golds f limit i)
      (Keyset.position GoldRow.sortKey limit (fun i => matchingRows f (golds i).table) i) := by
  induction i with
  | zero =>
      have start : decodeAfter codec none = .ok (none : Option Cursor) := rfl
      exact .reading start
  | succ i ih =>
      rw [cursorAt, Keyset.position]
      generalize cursorAt codec golds f limit i = cursor,
        Keyset.position GoldRow.sortKey limit (fun i => matchingRows f (golds i).table) i = position
        at ih ⊢
      cases ih with
      | ended => exact .ended
      | reading decoded =>
          simp only [Option.bind_some, bypass_page window decoded, Response.page?]
          exact atPosition_next inverse (golds i) f limit _

/-- A page of the walk, at its position. -/
theorem pageAt_cases (window : checkWindow f = .ok ()) (i : Nat) :
    (pageAt codec golds f limit i = none ∧
        Keyset.position GoldRow.sortKey limit (fun i => matchingRows f (golds i).table) i = none) ∨
      ∃ after, pageAt codec golds f limit i = some (pageBehind codec (golds i) f limit after) ∧
        Keyset.position GoldRow.sortKey limit (fun i => matchingRows f (golds i).table) i =
          some (after.map Cursor.sortKey) := by
  rw [pageAt]
  have simulated : AtPosition codec (cursorAt codec golds f limit i)
      (Keyset.position GoldRow.sortKey limit (fun i => matchingRows f (golds i).table) i) :=
    walk_position inverse window i
  generalize cursorAt codec golds f limit i = cursor,
    Keyset.position GoldRow.sortKey limit (fun i => matchingRows f (golds i).table) i = position
    at simulated ⊢
  cases simulated with
  | ended => exact .inl ⟨rfl, rfl⟩
  | reading decoded =>
      refine .inr ⟨_, ?_, rfl⟩
      rw [Option.bind_some, bypass_page window decoded]
      rfl

theorem walkedRows_eq (window : checkWindow f = .ok ()) (n : Nat) :
    walkedRows codec golds f limit n =
      Keyset.rows GoldRow.sortKey limit (fun i => matchingRows f (golds i).table) n := by
  rw [walkedRows, Keyset.rows]
  congr 1
  funext i
  rw [Keyset.rowsAt]
  rcases pageAt_cases inverse window i with ⟨page, position⟩ | ⟨after, page, position⟩
  · rw [page, position]
    rfl
  · rw [page, position]
    rfl

/-- A page without a cursor is the last one. -/
theorem nextCursor_eq_none (gold : Gold) (f : MetricsFilter) (limit : Nat)
    (after : Option Cursor) :
    (pageBehind codec gold f limit after).nextCursor = none ↔
      Keyset.next GoldRow.sortKey limit (after.map Cursor.sortKey)
        (matchingRows f gold.table) = none := by
  have corresponding := atPosition_next inverse gold f limit after
  generalize (pageBehind codec gold f limit after).nextCursor = cursor,
    Keyset.next GoldRow.sortKey limit (after.map Cursor.sortKey)
      (matchingRows f gold.table) = position at corresponding ⊢
  cases cursor with
  | none =>
      cases position with
      | none => simp
      | some k => cases corresponding
  | some token =>
      cases position with
      | none => cases corresponding
      | some k => simp

end Simulation

/-- What holds of a walk over the gold tables. A window that is refused has no pages, and
in every other walk each request is answered by one. -/
structure Paginates (codec : CursorCodec) (golds : Nat → Gold) (f : MetricsFilter)
    (limit : Nat) : Prop where
  refused : ∀ e, checkWindow f = .error e → ∀ i cursor,
    bypass codec (golds i) (pageRequest f limit cursor) = .error e
  answered : checkWindow f = .ok () → ∀ i cursor, cursorAt codec golds f limit i = some cursor →
    ∃ p, bypass codec (golds i) (pageRequest f limit cursor) = .ok (.page p)
  increasing : ∀ n, (walkedRows codec golds f limit n).Pairwise fun x y => x.sortKey < y.sortKey
  complete : ∀ n p, pageAt codec golds f limit n = some p → p.nextCursor = none →
    ∀ k, (∀ i ≤ n, ∃ r ∈ matchingRows f (golds i).table, r.sortKey = k) →
      ((walkedRows codec golds f limit (n + 1)).map GoldRow.sortKey).count k = 1
  constant : checkWindow f = .ok () → ∀ table, (∀ i, (golds i).table = table) →
    (∀ i, (pageAt codec golds f limit i).isSome ↔
      i < Keyset.pages limit (matchingRows f table).length) ∧
    (∀ i p, pageAt codec golds f limit i = some p →
      (p.nextCursor = none ↔ i + 1 = Keyset.pages limit (matchingRows f table).length)) ∧
    walkedRows codec golds f limit (Keyset.pages limit (matchingRows f table).length) =
      (matchingRows f table).insertionSort fun x y => x.sortKey ≤ y.sortKey

theorem pageAt_refused {e : ApiError} (window : checkWindow f = .error e) (codec : CursorCodec)
    (golds : Nat → Gold) (limit i : Nat) : pageAt codec golds f limit i = none := by
  rw [pageAt]
  cases cursorAt codec golds f limit i with
  | none => rfl
  | some cursor =>
      rw [Option.bind_some, bypass_refused window]
      rfl

theorem walkedRows_refused {e : ApiError} (window : checkWindow f = .error e)
    (codec : CursorCodec) (golds : Nat → Gold) (limit n : Nat) :
    walkedRows codec golds f limit n = [] := by
  simp [walkedRows, pageAt_refused window]

/-- Rows with distinct keys that match a filter have distinct keys. -/
theorem distinct_matchingRows (distinct : (table.map GoldRow.sortKey).Nodup) (f : MetricsFilter) :
    ((matchingRows f table).map GoldRow.sortKey).Nodup :=
  distinct.sublist (List.filter_sublist.map GoldRow.sortKey)

section Accepted

variable (inverse : ∀ c, codec.decode (codec.encode c) = .ok c)
variable (window : checkWindow f = .ok ()) (positive : 1 ≤ limit)

include inverse window

theorem answered_walk (i : Nat) (cursor : Option String)
    (h : cursorAt codec golds f limit i = some cursor) :
    ∃ p, bypass codec (golds i) (pageRequest f limit cursor) = .ok (.page p) := by
  have simulated : AtPosition codec (cursorAt codec golds f limit i)
      (Keyset.position GoldRow.sortKey limit (fun i => matchingRows f (golds i).table) i) :=
    walk_position inverse window i
  rw [h] at simulated
  generalize Keyset.position GoldRow.sortKey limit (fun i => matchingRows f (golds i).table) i =
    position at simulated
  cases simulated with
  | reading decoded => exact ⟨_, bypass_page window decoded (golds i)⟩

include positive

/-- A walk that ends has come across every key that stays. -/
theorem complete_walk (distinct : ∀ i, ((golds i).table.map GoldRow.sortKey).Nodup) (n : Nat)
    (p : HourlyMetricsPage) (h : pageAt codec golds f limit n = some p) (ends : p.nextCursor = none)
    (k : SortKey) (present : ∀ i ≤ n, ∃ r ∈ matchingRows f (golds i).table, r.sortKey = k) :
    ((walkedRows codec golds f limit (n + 1)).map GoldRow.sortKey).count k = 1 := by
  have matching : ∀ i, ((matchingRows f (golds i).table).map GoldRow.sortKey).Nodup :=
    fun i => distinct_matchingRows (distinct i) f
  rw [walkedRows_eq inverse window]
  rcases pageAt_cases inverse window n with ⟨page, _⟩ | ⟨after, page, position⟩
  · rw [page] at h
    cases h
  · obtain rfl := Option.some.inj (page.symm.trans h)
    have next := (nextCursor_eq_none inverse (golds n) f limit after).mp ends
    exact List.count_eq_one_of_mem (Keyset.nodup_rows matching (n + 1))
      (Keyset.mem_rows_of_ends matching positive position next fun i hi =>
        List.mem_map.mpr (present i hi))

/-- On a table that stays, the walk takes it page by page. -/
theorem constant_walk (distinct : (table.map GoldRow.sortKey).Nodup)
    (constant : ∀ i, (golds i).table = table) :
    (∀ i, (pageAt codec golds f limit i).isSome ↔
      i < Keyset.pages limit (matchingRows f table).length) ∧
    (∀ i p, pageAt codec golds f limit i = some p →
      (p.nextCursor = none ↔ i + 1 = Keyset.pages limit (matchingRows f table).length)) ∧
    walkedRows codec golds f limit (Keyset.pages limit (matchingRows f table).length) =
      (matchingRows f table).insertionSort fun x y => x.sortKey ≤ y.sortKey := by
  have matching := distinct_matchingRows distinct f
  have tables : (fun i => matchingRows f (golds i).table) = fun _ => matchingRows f table :=
    funext fun i => by rw [constant i]
  refine ⟨fun i => ?_, fun i p h => ?_, ?_⟩
  · rw [← Keyset.isSome_position_const matching positive i, ← tables]
    rcases pageAt_cases inverse window i with ⟨page, position⟩ | ⟨after, page, position⟩
    · rw [page, position]
      simp
    · rw [page, position]
      simp
  · rcases pageAt_cases inverse window i with ⟨page, _⟩ | ⟨after, page, position⟩
    · rw [page] at h
      cases h
    · obtain rfl := Option.some.inj (page.symm.trans h)
      rw [tables] at position
      rw [nextCursor_eq_none inverse, constant i, Keyset.next_const matching positive position]
  · rw [walkedRows_eq inverse window, tables, Keyset.rows_pages matching positive,
      Keyset.ordered_eq]

end Accepted

/-- Following the cursors of the pages loses and repeats nothing. -/
theorem paginates (float : List Char → PyFloat) (text : CursorFault → String)
    (golds : Nat → Gold) (f : MetricsFilter) (limit : Nat) (positive : 1 ≤ limit)
    (distinct : ∀ i, ((golds i).table.map GoldRow.sortKey).Nodup) :
    Paginates (cursorCodec float text) golds f limit := by
  have inverse := decode_encode_cursorCodec float text
  have refused : ∀ e, checkWindow f = .error e → ∀ i cursor,
      bypass (cursorCodec float text) (golds i) (pageRequest f limit cursor) = .error e :=
    fun e window i cursor => bypass_refused window (golds i) cursor
  cases window : checkWindow f with
  | error e =>
      refine ⟨refused, fun accepted => ?_, fun n => ?_, fun n p h => ?_, fun accepted => ?_⟩
      · cases window.symm.trans accepted
      · rw [walkedRows_refused window]
        exact List.Pairwise.nil
      · rw [pageAt_refused window] at h
        cases h
      · cases window.symm.trans accepted
  | ok _ =>
      refine ⟨refused, fun _ => answered_walk inverse window, fun n => ?_,
        complete_walk inverse window positive distinct, fun _ table constant => ?_⟩
      · rw [walkedRows_eq inverse window]
        exact (Keyset.increasing_rows (fun i => distinct_matchingRows (distinct i) f) n).1
      · have stays : (table.map GoldRow.sortKey).Nodup := constant 0 ▸ distinct 0
        exact constant_walk inverse window positive stays constant

theorem sampleHour_valid : 3 < 24 ∧ 0 < 60 ∧ 0 < 60 ∧ 0 < 1000000 := by decide

theorem sampleHour_validOffset (o : Int) (h : some 0 = some o) : o.natAbs < 86400000000 := by
  cases h
  decide

/-- An hour in UTC. -/
def sampleHour : DateTime :=
  ⟨.sample, 3, 0, 0, 0, some 0, sampleHour_valid, sampleHour_validOffset⟩

/-- Two rows of that hour. -/
def twoMethods : Gold where
  snapshotId := some "1"
  table := [⟨sampleHour, "NL", "ideal", 1, 100, 1⟩, ⟨sampleHour, "NL", "card", 2, 300, 1⟩]

/-- A walk over them with one row a page. -/
theorem paginates_twoMethods :
    Paginates (cursorCodec (fun _ => .nan) fun _ => "") (fun _ => twoMethods)
      ⟨none, none, none, none⟩ 1 :=
  paginates (fun _ => .nan) (fun _ => "") (fun _ => twoMethods) ⟨none, none, none, none⟩ 1
    (by decide) fun _ => by decide

/-- From that hour back to that hour. -/
def emptyWindow : MetricsFilter := ⟨some sampleHour, some sampleHour, none, none⟩

/-- A window that ends where it starts is refused, so that there is no first page, not even
an empty one. -/
theorem emptyWindow_refused :
    bypass (cursorCodec (fun _ => .nan) fun _ => "") twoMethods (pageRequest emptyWindow 1 none) =
        .error (.badRequest "end must be after start") ∧
      matchingRows emptyWindow twoMethods.table = [] ∧
      ¬∀ i, (pageAt (cursorCodec (fun _ => .nan) fun _ => "") (fun _ => twoMethods) emptyWindow 1
        i).isSome ↔ i < Keyset.pages 1 (matchingRows emptyWindow twoMethods.table).length := by
  have window : checkWindow emptyWindow = .error (.badRequest "end must be after start") := by
    decide
  refine ⟨bypass_refused window twoMethods none, by decide, fun pages => ?_⟩
  have first := (pages 0).mpr (by decide)
  rw [pageAt_refused window] at first
  cases first

end PaymentsPlatform.Api
