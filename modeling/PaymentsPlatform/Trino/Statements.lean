import PaymentsPlatform.Collections.OrderedDict

/-!
# Statements over Trino's HTTP protocol

`run_statement` and the loop of `run_script` of `scripts/trino_http.py`. The coordinator
serves a page for the statement that is posted and one for every link that is followed; a
request beyond the last page fails. A page reports that its query failed by an error object
with members in it; an empty one is taken for none. No rows come out of a query with such a
page, and no statement is posted behind it (`runScript_reports`).
-/

namespace PaymentsPlatform.Trino

/-- A page of an answer. What is absent or null is `none`; the members of an error are given
by their texts. -/
structure Page (R : Type) where
  data : Option (List R)
  nextUri : Option String
  error : Option (OrderedDict String String)

/-- A request, as the coordinator gets it. -/
inductive Event where
  | post (sql : String)
  | get (uri : String)
  deriving DecidableEq, Repr

/-- The `RuntimeError` of a failed query, or the exception of a failed request. -/
inductive TrinoError where
  | query (text : String)
  | request
  deriving DecidableEq, Repr

section Client

variable {R : Type}

/-- `page.get("nextUri")`, when it is not empty. -/
def Page.link (page : Page R) : Option String := page.nextUri.filter fun uri => uri ≠ ""

/-- The rows of all pages; a page without data has none. -/
def collectRows (pages : List (Page R)) : List R :=
  pages.foldl (fun rows page => rows ++ page.data.getD []) []

/-- The text of the error of a page. -/
def queryErrorText (error : OrderedDict String String) : String :=
  let message := (error.get? "message").getD "unknown Trino error"
  let name := (error.get? "errorName").getD ""
  "Trino query failed [" ++ name ++ "]: " ++ message

def raiseForQueryError (page : Page R) : Except TrinoError Unit :=
  match page.error with
  | none => .ok ()
  | some error =>
      if error.entries.isEmpty then .ok () else .error (.query (queryErrorText error))

/-- The loop of `run_statement`, behind a page: the pages it has got, and those that are
still served. -/
def follow (pages : List (Page R)) (page : Page R) :
    List (Page R) → List Event × Except TrinoError (List R)
  | [] =>
      match page.link with
      | none => ([], .ok (collectRows pages))
      | some uri => ([.get uri], .error .request)
  | next :: served =>
      match page.link with
      | none => ([], .ok (collectRows pages))
      | some uri =>
          match raiseForQueryError next with
          | .error e => ([.get uri], .error e)
          | .ok () =>
              let (events, rows) := follow (pages ++ [next]) next served
              (.get uri :: events, rows)

/-- A statement is posted, and the pages that are served for it are followed. -/
def runStatement (sql : String) : List (Page R) → List Event × Except TrinoError (List R)
  | [] => ([.post sql], .error .request)
  | page :: served =>
      match raiseForQueryError page with
      | .error e => ([.post sql], .error e)
      | .ok () =>
          let (events, rows) := follow [page] page served
          (.post sql :: events, rows)

/-- The loop of `run_script`, over the statements with the pages that are served for each. -/
def runStatements : List (String × List (Page R)) → List Event × Except TrinoError Unit
  | [] => ([], .ok ())
  | (sql, served) :: rest =>
      match runStatement sql served with
      | (events, .error e) => (events, .error e)
      | (events, .ok _) =>
          let (others, result) := runStatements rest
          (events ++ others, result)

/-- The page carries an error. -/
def Page.Failed (page : Page R) : Prop := ∃ error, page.error = some error ∧ error.entries ≠ []

/-- The `RuntimeError` of a page. -/
def Page.queryError (page : Page R) : TrinoError :=
  .query (queryErrorText (page.error.getD .empty))

/-- The pages of a query: each but the last links to the next one, and the last has no link
unless it carries an error. -/
def Served : List (Page R) → Prop
  | [] => False
  | [page] => page.link = none ∨ page.Failed
  | page :: next :: rest => page.link ≠ none ∧ Served (next :: rest)

/-- The requests of a statement for some pages and the links behind them. -/
def requests (sql : String) (pages : List (Page R)) : List Event :=
  .post sql :: (pages.filterMap Page.link).map .get

/-- A statement whose pages carry no error gives all their rows in order. One with such a page
raises, having followed the links in front of the first of these pages. -/
structure Reports (sql : String) (pages : List (Page R)) : Prop where
  complete : (∀ p ∈ pages, ¬p.Failed) →
    runStatement sql pages =
      (requests sql pages, .ok (pages.flatMap fun p => p.data.getD []))
  failed : ∀ before p after, pages = before ++ p :: after → (∀ q ∈ before, ¬q.Failed) →
    p.Failed → runStatement sql pages = (requests sql before, .error p.queryError)

/-- No page of a statement carries an error. -/
def ErrorFree (e : String × List (Page R)) : Prop := ∀ p ∈ e.2, ¬p.Failed

/-- A script whose pages carry no error posts all its statements and returns. One with such a
page stops with what the first statement with one raises. -/
structure ScriptReports (script : List (String × List (Page R))) : Prop where
  complete : (∀ e ∈ script, ErrorFree e) →
    runStatements script = (script.flatMap fun e => requests e.1 e.2, .ok ())
  failed : ∀ before sql pages after, script = before ++ (sql, pages) :: after →
    (∀ e ∈ before, ErrorFree e) → ¬ErrorFree (sql, pages) →
      ∃ error, (runStatement sql pages).2 = .error error ∧ runStatements script =
        (before.flatMap (fun e => requests e.1 e.2) ++ (runStatement sql pages).1, .error error)
  returns : (runStatements script).2 = .ok () ↔ ∀ e ∈ script, ErrorFree e

end Client

section Pages

variable {R : Type} {page p : Page R} {pages before after rest : List (Page R)} {sql : String}

theorem collectRows_eq (pages : List (Page R)) :
    collectRows pages = pages.flatMap fun p => p.data.getD [] := by
  induction pages using List.reverseRecOn with
  | nil => rfl
  | append_singleton pages page ih =>
      rw [collectRows, List.foldl_append, List.flatMap_append, ← ih]
      simp [collectRows]

theorem raiseForQueryError_of_failed (failed : page.Failed) :
    raiseForQueryError page = .error page.queryError := by
  obtain ⟨error, herror, members⟩ := failed
  simp [raiseForQueryError, Page.queryError, herror, members]

theorem raiseForQueryError_of_not_failed (free : ¬page.Failed) :
    raiseForQueryError page = .ok () := by
  unfold raiseForQueryError
  split
  · rfl
  · rename_i error herror
    refine if_pos (List.isEmpty_iff.mpr ?_)
    by_contra members
    exact free ⟨error, herror, members⟩

/-- The link of a page that is not the last one. -/
theorem Served.exists_link (served : Served (page :: p :: rest)) :
    ∃ uri, page.link = some uri ∧ Served (p :: rest) := by
  obtain ⟨uri, huri⟩ := Option.ne_none_iff_exists'.mp served.1
  exact ⟨uri, huri, served.2⟩

theorem follow_complete (served : Served (page :: rest)) (free : ∀ q ∈ page :: rest, ¬q.Failed)
    (pages : List (Page R)) :
    follow pages page rest =
      (((page :: rest).filterMap Page.link).map .get, .ok (collectRows (pages ++ rest))) := by
  induction rest generalizing page pages with
  | nil =>
      have last : page.link = none := served.resolve_right (free page List.mem_cons_self)
      simp [follow, last]
  | cons next rest ih =>
      obtain ⟨uri, huri, served⟩ := served.exists_link
      have free' : ∀ q ∈ next :: rest, ¬q.Failed := fun q hq => free q (List.mem_cons_of_mem _ hq)
      have raised := raiseForQueryError_of_not_failed (free' next List.mem_cons_self)
      simp only [follow, huri, raised, ih served free', List.filterMap_cons, List.append_assoc,
        List.map_cons, List.singleton_append]

theorem follow_failed (served : Served (page :: (before ++ p :: after)))
    (free : ∀ q ∈ before, ¬q.Failed) (failed : p.Failed) (pages : List (Page R)) :
    follow pages page (before ++ p :: after) =
      (((page :: before).filterMap Page.link).map .get, .error p.queryError) := by
  induction before generalizing page pages with
  | nil =>
      obtain ⟨uri, huri, -⟩ := served.exists_link
      simp [follow, huri, raiseForQueryError_of_failed failed]
  | cons next before ih =>
      obtain ⟨uri, huri, served⟩ := served.exists_link
      obtain ⟨hnext, free⟩ := List.forall_mem_cons.mp free
      have raised := raiseForQueryError_of_not_failed hnext
      simp only [List.cons_append, follow, huri, raised, ih served free, List.filterMap_cons,
        List.map_cons]

theorem reports_of_served (sql : String) (served : Served pages) : Reports sql pages := by
  constructor
  · intro free
    cases pages with
    | nil => exact absurd served id
    | cons page rest =>
        have raised := raiseForQueryError_of_not_failed (free page List.mem_cons_self)
        simp only [runStatement, raised, follow_complete served free, collectRows_eq]
        rfl
  · rintro before p after rfl free failed
    cases before with
    | nil =>
        simp only [List.nil_append, runStatement, raiseForQueryError_of_failed failed]
        rfl
    | cons page before =>
        obtain ⟨hpage, free⟩ := List.forall_mem_cons.mp free
        have raised := raiseForQueryError_of_not_failed hpage
        have followed : follow [page] page (before ++ p :: after) = _ :=
          follow_failed served free failed [page]
        simp only [List.cons_append, runStatement, raised, followed]
        rfl

/-- The first of some entries that do not meet a condition. -/
theorem exists_first_failing {α : Type} {P : α → Prop} {entries : List α}
    (h : ¬∀ e ∈ entries, P e) :
    ∃ before e after, entries = before ++ e :: after ∧ (∀ x ∈ before, P x) ∧ ¬P e := by
  induction entries with
  | nil => exact absurd (by simp) h
  | cons e entries ih =>
      by_cases holds : P e
      · obtain ⟨before, x, after, rfl, free, failing⟩ := ih fun all =>
          h (List.forall_mem_cons.mpr ⟨holds, all⟩)
        exact ⟨e :: before, x, after, rfl, List.forall_mem_cons.mpr ⟨holds, free⟩, failing⟩
      · exact ⟨[], e, entries, rfl, by simp, holds⟩

end Pages

section Script

variable {R : Type} {script before after : List (String × List (Page R))}
variable {sql : String} {pages : List (Page R)}

/-- Statements without errors are followed by the rest of the script. -/
theorem runStatements_append (served : ∀ e ∈ before, Served e.2)
    (free : ∀ e ∈ before, ErrorFree e) (after : List (String × List (Page R))) :
    runStatements (before ++ after) =
      (before.flatMap (fun e => requests e.1 e.2) ++ (runStatements after).1,
        (runStatements after).2) := by
  induction before with
  | nil => rfl
  | cons e before ih =>
      obtain ⟨hserved, served⟩ := List.forall_mem_cons.mp served
      obtain ⟨hfree, free⟩ := List.forall_mem_cons.mp free
      have ran := (reports_of_served e.1 hserved).complete hfree
      rw [List.cons_append, runStatements, ran, List.flatMap_cons, List.append_assoc]
      simp only [ih served free]

theorem runStatement_of_not_errorFree (served : Served pages)
    (failing : ¬ErrorFree (sql, pages)) :
    ∃ error, (runStatement sql pages).2 = .error error := by
  obtain ⟨before, p, after, hpages, free, failed⟩ := exists_first_failing failing
  have ran := (reports_of_served sql served).failed before p after hpages free (not_not.mp failed)
  exact ⟨_, congrArg Prod.snd ran⟩

theorem runStatements_failed (served : ∀ e ∈ before ++ (sql, pages) :: after, Served e.2)
    (free : ∀ e ∈ before, ErrorFree e) (failing : ¬ErrorFree (sql, pages)) :
    ∃ error, (runStatement sql pages).2 = .error error ∧
      runStatements (before ++ (sql, pages) :: after) =
        (before.flatMap (fun e => requests e.1 e.2) ++ (runStatement sql pages).1,
          .error error) := by
  obtain ⟨servedBefore, servedRest⟩ := List.forall_mem_append.mp served
  have servedHere := servedRest (sql, pages) List.mem_cons_self
  obtain ⟨error, raised⟩ := runStatement_of_not_errorFree servedHere failing
  refine ⟨error, raised, ?_⟩
  have ran : runStatement sql pages = ((runStatement sql pages).1, .error error) :=
    Prod.ext rfl raised
  have stopped : runStatements ((sql, pages) :: after) =
      ((runStatement sql pages).1, .error error) := by
    rw [runStatements, ran]
  rw [runStatements_append servedBefore free, stopped]

/-- No failed query passes for a result, in a statement or in a script. -/
theorem runScript_reports (script : List (String × List (Page R)))
    (served : ∀ e ∈ script, Served e.2) :
    (∀ e ∈ script, Reports e.1 e.2) ∧ ScriptReports script := by
  have complete : (∀ e ∈ script, ErrorFree e) →
      runStatements script = (script.flatMap fun e => requests e.1 e.2, .ok ()) := by
    intro free
    have ran := runStatements_append served free []
    rwa [List.append_nil, runStatements, List.append_nil] at ran
  refine ⟨fun e he => reports_of_served e.1 (served e he), complete, ?_, ?_, ?_⟩
  · rintro before sql pages after rfl free failing
    exact runStatements_failed served free failing
  · intro returned
    by_contra failing
    obtain ⟨before, e, after, rfl, free, failing⟩ := exists_first_failing failing
    obtain ⟨error, -, ran⟩ := runStatements_failed served free failing
    rw [ran] at returned
    cases returned
  · intro free
    rw [complete free]

/-- A statement with two pages. -/
def twoPages : List (String × List (Page Nat)) :=
  [("SELECT 1", [⟨some [1], some "http://trino:8080/v1/statement/x/1", none⟩, ⟨none, none, none⟩])]

theorem runScript_reports_twoPages :
    (∀ e ∈ twoPages, Reports e.1 e.2) ∧ ScriptReports twoPages := by
  refine runScript_reports twoPages fun e he => ?_
  obtain rfl := List.mem_singleton.mp he
  exact ⟨by decide, .inl rfl⟩

/-- An error object without members is passed over, and the rows of its page are returned. -/
theorem empty_error_passes :
    runStatement "SELECT 1" [(⟨some [1], none, some .empty⟩ : Page Nat)] =
      ([.post "SELECT 1"], .ok [1]) := rfl

end Script

end PaymentsPlatform.Trino
