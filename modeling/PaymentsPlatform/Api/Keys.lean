import PaymentsPlatform.Api.Handlers

/-!
# What a cache key and a compiled query determine

The key joins seven texts with `|`. The first three never contain a `|`, so that
requests with one key agree on the endpoint and the window (`key_eq_iff`); of the others
only the joined text is determined. Compiled queries are told apart by their text and
parameters (`sameQuery_of_sql`).
-/

namespace PaymentsPlatform.Api

/-- The requests ask the same question. -/
structure SameQuery (a b : Checked) : Prop where
  filters : a.filters = b.filters
  limit : a.limit = b.limit
  after : a.after = b.after

/-- The fields of the key that can contain the separator, with absent fields empty. -/
def Checked.freeText (a : Checked) : String :=
  Text.join "|" [a.filters.countryCode.getD "", a.filters.paymentMethod.getD "",
    limitText a.limit, a.cursor.getD ""]

section Key

variable {a b : Checked} {t t' : Option DateTime}

private theorem isoformat_ne_empty (t : DateTime) : t.isoformat ≠ "" := by
  intro h
  have hmem : 'T' ∈ t.isoformat.toList := by simp [DateTime.isoformat, DateTime.isoformatChars]
  simp [h] at hmem

private theorem timeText_inj : timeText t = timeText t' ↔ t = t' := by
  constructor
  · cases t <;> cases t' <;> intro h <;>
      simp only [timeText, Option.map_none, Option.map_some, Option.getD_none,
        Option.getD_some] at h
    · rfl
    · exact absurd h.symm (isoformat_ne_empty _)
    · exact absurd h (isoformat_ne_empty _)
    · rw [DateTime.isoformat_injective h]
  · rintro rfl
    rfl

private theorem bar_not_mem_timeText (t : Option DateTime) : '|' ∉ (timeText t).toList := by
  cases t with
  | none => simp [timeText]
  | some t => exact DateTime.not_mem_isoformat (by decide) (by decide)

/-- Requests share a key exactly when they agree on the endpoint and the window, and
their other fields have one joined text. -/
theorem key_eq_iff : a.key = b.key ↔ a.endpoint = b.endpoint ∧
    a.filters.start = b.filters.start ∧ a.filters.end_ = b.filters.end_ ∧
      a.freeText = b.freeText := by
  have endpoints : ∀ a : Checked, '|' ∉ a.endpoint.toList := by
    intro a
    unfold Checked.endpoint
    split <;> decide
  unfold Checked.key cacheKey
  rw [Text.join_cons_inj (c := '|') (by decide) (by simp) (by simp) (endpoints a) (endpoints b),
    Text.join_cons_inj (c := '|') (by decide) (by simp) (by simp) (bar_not_mem_timeText _)
      (bar_not_mem_timeText _),
    Text.join_cons_inj (c := '|') (by decide) (by simp) (by simp) (bar_not_mem_timeText _)
      (bar_not_mem_timeText _), timeText_inj, timeText_inj]
  rfl

end Key

section Sql

variable {c c' m m' : Option String} {after after' : Option Cursor}

/-- The clauses of a window. -/
def windowPredicates (start end_ : Option DateTime) : List Predicate :=
  (start.map .startsAt).toList ++ (end_.map .endsBefore).toList

/-- The clauses that follow those of the window. -/
def tailPredicates (c m : Option String) (after : Option Cursor) : List Predicate :=
  (c.map .country).toList ++ ((m.map .method).toList ++ (after.map .after).toList)

/-- Clauses in one place are told apart by the first character of their texts. -/
private theorem conjunction_ne (before rest rest' : List Predicate) {p q : Predicate} {x y : Char}
    (hp : p.text.toList.head? = some x) (hq : q.text.toList.head? = some y) (different : x ≠ y) :
    conjunction (before ++ p :: rest) ≠ conjunction (before ++ q :: rest') := by
  intro h
  obtain ⟨xs, hxs⟩ := List.head?_eq_some_iff.mp hp
  obtain ⟨ys, hys⟩ := List.head?_eq_some_iff.mp hq
  obtain ⟨more, hleft⟩ := Text.join_append_cons " AND " p.text (before.map Predicate.text)
    (rest.map Predicate.text)
  obtain ⟨more', hright⟩ := Text.join_append_cons " AND " q.text (before.map Predicate.text)
    (rest'.map Predicate.text)
  have same := congrArg String.toList h
  rw [conjunction, conjunction, List.map_append, List.map_append, List.map_cons, List.map_cons,
    hleft, hright, List.append_cancel_left_eq, hxs, hys] at same
  exact different (List.cons.inj same).1

private theorem country_ne_method (before rest rest' : List Predicate) (code name : String) :
    conjunction (before ++ .country code :: rest) ≠ conjunction (before ++ .method name :: rest') :=
  conjunction_ne before rest rest'
    (show "country_code = ?".toList.head? = some 'c' by decide)
    (show "payment_method = ?".toList.head? = some 'p' by decide) (by decide)

/-- Which of the tail clauses there are shows in the number of parameters, up to a
country clause in the place of a method clause. -/
private theorem tailPredicates_inj_of_country (same : c.isSome = c'.isSome)
    (params : (tailPredicates c m after).flatMap Predicate.params =
      (tailPredicates c' m' after').flatMap Predicate.params) :
    c = c' ∧ m = m' ∧ after = after' := by
  cases c <;> cases c' <;> cases m <;> cases m' <;> cases after <;> cases after' <;>
    simp [tailPredicates, Predicate.params] at params same ⊢ <;> simp [params, Cursor.ext_iff]

/-- Behind one window, text and parameters determine the clauses. -/
private theorem tailPredicates_inj (before : List Predicate)
    (params : (tailPredicates c m after).flatMap Predicate.params =
      (tailPredicates c' m' after').flatMap Predicate.params)
    (text : conjunction (before ++ tailPredicates c m after) =
      conjunction (before ++ tailPredicates c' m' after')) :
    c = c' ∧ m = m' ∧ after = after' := by
  refine tailPredicates_inj_of_country ?_ params
  cases c with
  | none =>
      cases c' with
      | none => rfl
      | some code =>
          cases m with
          | none =>
              cases m' <;> cases after <;> cases after' <;>
                simp [tailPredicates, Predicate.params] at params
          | some name => exact absurd text.symm (country_ne_method before _ _ code name)
  | some code =>
      cases c' with
      | none =>
          cases m' with
          | none =>
              cases m <;> cases after <;> cases after' <;>
                simp [tailPredicates, Predicate.params] at params
          | some name => exact absurd text (country_ne_method before _ _ code name)
      | some code' => rfl

variable {f f' : MetricsFilter} {limit limit' : Nat}

private theorem newline_not_mem_conjunction (predicates : List Predicate) :
    '\n' ∉ (conjunction predicates).toList := by
  refine Text.not_mem_join (by decide) fun part hpart => ?_
  obtain ⟨p, _, rfl⟩ := List.mem_map.mp hpart
  cases p with
  | startsAt t => exact (by decide : '\n' ∉ "payment_hour >= ?".toList)
  | endsBefore t => exact (by decide : '\n' ∉ "payment_hour < ?".toList)
  | country code => exact (by decide : '\n' ∉ "country_code = ?".toList)
  | method name => exact (by decide : '\n' ∉ "payment_method = ?".toList)
  | after c =>
      have absent : '\n' ∉ ("(payment_hour > ? OR (payment_hour = ? AND country_code > ?)" ++
          " OR (payment_hour = ? AND country_code = ? AND payment_method > ?))").toList := by
        decide +kernel
      exact absent

private theorem pagePredicates_eq (f : MetricsFilter) (after : Option Cursor) :
    pagePredicates f after =
      windowPredicates f.start f.end_ ++ tailPredicates f.countryCode f.paymentMethod after := by
  simp [pagePredicates, filterPredicates, windowPredicates, tailPredicates]

/-- With one window, the text and the parameters determine filters and cursor. -/
private theorem pagePredicates_inj (hstart : f.start = f'.start) (hend : f.end_ = f'.end_)
    (params : (pagePredicates f after).flatMap Predicate.params =
      (pagePredicates f' after').flatMap Predicate.params)
    (text : conjunction (pagePredicates f after) = conjunction (pagePredicates f' after')) :
    f = f' ∧ after = after' := by
  rw [pagePredicates_eq, pagePredicates_eq, hstart, hend, List.flatMap_append, List.flatMap_append,
    List.append_cancel_left_eq] at params
  rw [pagePredicates_eq, pagePredicates_eq, hstart, hend] at text
  obtain ⟨hcountry, hmethod, hafter⟩ := tailPredicates_inj _ params text
  obtain ⟨start, end_, countryCode, paymentMethod⟩ := f
  obtain ⟨start', end', countryCode', paymentMethod'⟩ := f'
  simp_all

/-- There are parameters exactly when there are clauses. -/
private theorem isEmpty_eq_of_params {ps ps' : List Predicate}
    (params : ps.flatMap Predicate.params = ps'.flatMap Predicate.params) :
    ps.isEmpty = ps'.isEmpty := by
  have nonempty : ∀ p : Predicate, p.params ≠ [] := by
    intro p
    cases p <;> simp [Predicate.params]
  cases ps <;> cases ps' <;> simp_all

/-- A page query determines its filters, its limit and its cursor. -/
theorem hourlyMetricsSql_inj (hstart : f.start = f'.start) (hend : f.end_ = f'.end_)
    (h : hourlyMetricsSql f limit after = hourlyMetricsSql f' limit' after') :
    f = f' ∧ limit = limit' ∧ after = after' := by
  obtain ⟨text, params⟩ := Prod.mk.inj h
  have empty := isEmpty_eq_of_params params
  have parts : conjunction (pagePredicates f after) = conjunction (pagePredicates f' after') ∧
      orderAndLimit limit = orderAndLimit limit' := by
    simp only [String.append_right_inj] at text
    cases hempty : (pagePredicates f after).isEmpty with
    | true =>
        rw [hempty] at empty
        rw [hempty, ← empty] at text
        simp only [if_true, String.append_right_inj] at text
        rw [List.isEmpty_iff.mp hempty, List.isEmpty_iff.mp empty.symm]
        exact ⟨rfl, text⟩
    | false =>
        rw [← empty, hempty] at text
        simp only [Bool.false_eq_true, if_false, String.append_assoc,
          String.append_right_inj] at text
        refine (Text.append_sep_inj (show "\n".toList = ['\n'] by decide)
          (newline_not_mem_conjunction _) (newline_not_mem_conjunction _)).mp ?_
        simpa only [String.append_assoc] using text
  obtain ⟨hf, hafter⟩ := pagePredicates_inj hstart hend params parts.1
  exact ⟨hf, Text.toString_injective (String.append_right_inj _ |>.mp parts.2), hafter⟩

/-- A summary query determines its filters. -/
theorem summarySql_inj (hstart : f.start = f'.start) (hend : f.end_ = f'.end_)
    (h : summarySql f = summarySql f') : f = f' := by
  have page : ∀ f, filterPredicates f = pagePredicates f none := by simp [pagePredicates]
  obtain ⟨text, params⟩ := Prod.mk.inj h
  rw [page, page] at params
  have empty := isEmpty_eq_of_params params
  refine (pagePredicates_inj hstart hend params ?_).1
  simp only [String.append_right_inj, page] at text
  cases hempty : (pagePredicates f none).isEmpty with
  | true =>
      rw [hempty] at empty
      rw [List.isEmpty_iff.mp hempty, List.isEmpty_iff.mp empty.symm]
  | false =>
      rw [← empty, hempty] at text
      simpa only [Bool.false_eq_true, if_false, String.append_right_inj] using text

end Sql

section Query

variable {a b : Checked} {table : List GoldRow}

/-- Requests of one endpoint and window with the same SQL and parameters ask the same. -/
theorem sameQuery_of_sql (endpoint : a.endpoint = b.endpoint)
    (hstart : a.filters.start = b.filters.start) (hend : a.filters.end_ = b.filters.end_)
    (h : a.sql = b.sql) : SameQuery a b := by
  obtain ⟨f, page⟩ := a
  obtain ⟨f', page'⟩ := b
  cases page <;> cases page' <;> simp only [Checked.endpoint, Checked.sql] at endpoint h
  · have same := summarySql_inj hstart hend h
    exact ⟨same, rfl, rfl⟩
  · simp at endpoint
  · simp at endpoint
  · obtain ⟨same, hlimit, hafter⟩ := hourlyMetricsSql_inj hstart hend h
    exact ⟨same, congrArg some (Nat.succ.inj hlimit), hafter⟩

namespace SameQuery

theorem sql_eq (h : SameQuery a b) : a.sql = b.sql := by
  obtain ⟨hfilters, hlimit, hafter⟩ := h
  obtain ⟨f, page⟩ := a
  obtain ⟨f', page'⟩ := b
  cases page <;> cases page' <;>
    simp_all [Checked.limit, Checked.after, Checked.sql]

theorem build_eq (h : SameQuery a b) : a.build table = b.build table := by
  obtain ⟨hfilters, hlimit, hafter⟩ := h
  obtain ⟨f, page⟩ := a
  obtain ⟨f', page'⟩ := b
  cases page <;> cases page' <;>
    simp_all [Checked.limit, Checked.after, Checked.build]

end SameQuery

end Query

end PaymentsPlatform.Api
