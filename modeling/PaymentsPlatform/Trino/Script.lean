import PaymentsPlatform.Text.Lexical
import PaymentsPlatform.Text.Lines
import PaymentsPlatform.Text.Runs
import PaymentsPlatform.Trino.Statements

/-!
# Scripts

`split_statements` and `run_script` of `scripts/trino_http.py`. A script is split at each `;`,
wherever that stands, and the lines that are blank or start with two dashes are left out. The
elements of a script are of any type with a character each, so that the split can also be
followed on characters with their positions.
-/

namespace PaymentsPlatform.Trino

open Text Text.Lexical

/-- `str.isspace`, of one character. -/
def isSpace (c : Char) : Bool :=
  let n := c.toNat
  (0x9 ≤ n && n ≤ 0xd) || (0x1c ≤ n && n ≤ 0x20) || n == 0x85 || n == 0xa0 || n == 0x1680 ||
    (0x2000 ≤ n && n ≤ 0x200a) || n == 0x2028 || n == 0x2029 || n == 0x202f || n == 0x205f ||
    n == 0x3000

/-- A character that ends a line for `str.splitlines`. -/
def isBoundary (c : Char) : Bool :=
  let n := c.toNat
  (0xa ≤ n && n ≤ 0xd) || (0x1c ≤ n && n ≤ 0x1e) || n == 0x85 || n == 0x2028 || n == 0x2029

/-- What a character is in SQL. -/
def kindOf (c : Char) : Kind :=
  if c = '-' then .dash
  else if c = '\'' then .quote
  else if c = ';' then .separator
  else if c = '\n' then .newline
  else if c = '\r' then .carriageReturn
  else if isSpace c then .space
  else .other

section Split

variable {α : Type*} (char : α → Char) (newline : α)

/-- An element in front of the first line. -/
def consLine (a : α) : List (List α) → List (List α)
  | [] => [[a]]
  | line :: lines => (a :: line) :: lines

/-- The lines of a text without their ends; there is none behind the last end. -/
def splitlines : List α → List (List α)
  | [] => []
  | [a] => if isBoundary (char a) then [[]] else [[a]]
  | a :: b :: text =>
      -- A carriage return and a newline are one end of a line.
      if char a = '\r' ∧ char b = '\n' then [] :: splitlines text
      else if isBoundary (char a) then [] :: splitlines (b :: text)
      else consLine a (splitlines (b :: text))

/-- The lines that `split_statements` keeps. -/
def keepLine (line : List α) : Bool :=
  let stripped := strip (isSpace ∘ char) line
  !stripped.isEmpty && !(['-', '-'].isPrefixOf (stripped.map char))

/-- The statement of a chunk, when some line is kept. -/
def chunkStatement (chunk : List α) : Option (List α) :=
  let lines := (splitlines char chunk).filter (keepLine char)
  if lines.isEmpty then none
  else some (strip (isSpace ∘ char) ([newline].intercalate lines))

def isSeparator (a : α) : Bool := char a = ';'

/-- `split_statements`, for a script of any elements. -/
def splitStatementsOf (script : List α) : List (List α) :=
  (script.splitOnP (isSeparator char)).filterMap (chunkStatement char newline)

end Split

/-- The statements of a script. -/
def splitStatements (script : String) : List String :=
  (splitStatementsOf id '\n' script.toList).map String.ofList

/-- The statements of a script, one after the other, with the pages that are served for each. -/
def runScript {R : Type} (script : String) (serves : ℕ → List (Page R)) :
    List Event × Except TrinoError Unit :=
  runStatements ((splitStatements script).mapIdx fun i sql => (sql, serves i))

section Characters

variable {c : Char}

theorem isSpace_of_isBoundary (h : isBoundary c = true) : isSpace c = true := by
  simp only [isBoundary, isSpace, Bool.or_eq_true, Bool.and_eq_true, decide_eq_true_eq,
    beq_iff_eq] at h ⊢
  omega

@[simp] theorem kindOf_dash_iff : kindOf c = .dash ↔ c = '-' := by
  unfold kindOf
  grind

@[simp] theorem kindOf_quote_iff : kindOf c = .quote ↔ c = '\'' := by
  unfold kindOf
  grind

@[simp] theorem kindOf_separator_iff : kindOf c = .separator ↔ c = ';' := by
  unfold kindOf
  grind

@[simp] theorem kindOf_newline_iff : kindOf c = .newline ↔ c = '\n' := by
  unfold kindOf
  grind

@[simp] theorem kindOf_carriageReturn_iff : kindOf c = .carriageReturn ↔ c = '\r' := by
  unfold kindOf
  grind

@[simp] theorem blank_kindOf (c : Char) : (kindOf c).blank = isSpace c := by
  unfold kindOf
  split_ifs <;> simp_all [Kind.blank] <;> decide

end Characters

section Lines

variable {α β : Type*} {char : α → Char} {newline a : α} {line text chunk : List α}
variable {lines : List (List α)}

theorem keepLine_nil (char : α → Char) : keepLine char [] = false := rfl

/-- Up to empty lines, the lines are what lies between boundaries. -/
def LikePieces (char : α → Char) (text : List α) : Prop :=
  ∃ line lines pieces, splitlines char text = line :: lines ∧
    text.splitOnP (isBoundary ∘ char) = line :: pieces ∧
      lines.filter (keepLine char) = pieces.filter (keepLine char)

theorem LikePieces.filter_eq (h : LikePieces char text) :
    (splitlines char text).filter (keepLine char) =
      (text.splitOnP (isBoundary ∘ char)).filter (keepLine char) := by
  obtain ⟨line, lines, pieces, hlines, hpieces, same⟩ := h
  rw [hlines, hpieces, List.filter_cons, List.filter_cons, same]

theorem likePieces (nonempty : text ≠ []) : LikePieces char text := by
  fun_induction splitlines char text with
  | case1 => exact absurd rfl nonempty
  | case2 a boundary =>
      exact ⟨[], [], [[]], by simp [splitlines, boundary],
        by simp [List.splitOnP_cons_eq_if_modifyHead, boundary], by simp [keepLine_nil]⟩
  | case3 a inside =>
      exact ⟨[a], [], [], by simp [splitlines, inside],
        by simp [List.splitOnP_cons_eq_if_modifyHead, inside], rfl⟩
  | case4 a b text ends ih =>
      have first : isBoundary (char a) = true := by
        rw [ends.1]
        decide
      have second : isBoundary (char b) = true := by
        rw [ends.2]
        decide
      refine ⟨[], splitlines char text, [] :: text.splitOnP (isBoundary ∘ char),
        by rw [splitlines, if_pos ends],
        by simp [List.splitOnP_cons_eq_if_modifyHead, first, second], ?_⟩
      -- What is behind the pair may be empty, with one piece and no line.
      cases text with
      | nil => rfl
      | cons c text =>
          rw [List.filter_cons_of_neg (by simp [keepLine_nil])]
          exact (ih (List.cons_ne_nil c text)).filter_eq
  | case5 a b text ends boundary ih =>
      refine ⟨[], splitlines char (b :: text), (b :: text).splitOnP (isBoundary ∘ char),
        by rw [splitlines, if_neg ends, if_pos boundary], ?_,
        (ih (List.cons_ne_nil b text)).filter_eq⟩
      rw [List.splitOnP_cons_eq_if_modifyHead]
      exact if_pos boundary
  | case6 a b text ends inside ih =>
      obtain ⟨line, lines, pieces, hlines, hpieces, same⟩ := ih (List.cons_ne_nil b text)
      refine ⟨a :: line, lines, pieces, ?_, ?_, same⟩
      · rw [splitlines, if_neg ends, if_neg inside, hlines]
        rfl
      · rw [List.splitOnP_cons_eq_if_modifyHead, hpieces]
        exact if_neg inside

/-- Which lines are kept does not depend on the empty ones. -/
theorem filter_splitlines (char : α → Char) (text : List α) :
    (splitlines char text).filter (keepLine char) =
      (text.splitOnP (isBoundary ∘ char)).filter (keepLine char) := by
  cases text with
  | nil => rfl
  | cons a text => exact (likePieces (List.cons_ne_nil a text)).filter_eq

end Lines

section Kept

variable {α : Type*} {char : α → Char} {newline a : α} {line text front rest : List α}
variable {lines : List (List α)}

theorem keepLine_of_blank (blank : ∀ a ∈ line, isSpace (char a) = true) :
    keepLine char line = false := by
  rw [keepLine, strip_eq_nil (p := isSpace ∘ char) blank]
  rfl

/-- White space behind a text is no dash. -/
theorem ahead_rdropWhile (char : α → Char) (text : List α) :
    ahead (kindOf ∘ char) false (text.rdropWhile (isSpace ∘ char)) =
      ahead (kindOf ∘ char) false text := by
  cases text with
  | nil => rfl
  | cons b text =>
      cases hb : isSpace (char b) with
      | false =>
          rw [rdropWhile_cons (p := isSpace ∘ char) hb]
          rfl
      | true =>
          have other : kindOf (char b) ≠ .dash := fun h => by
            rw [kindOf_dash_iff.mp h] at hb
            cases hb
          obtain ⟨back, hback⟩ := List.rdropWhile_prefix (isSpace ∘ char) (l := b :: text)
          cases hkept : (b :: text).rdropWhile (isSpace ∘ char) with
          | nil => exact (decide_eq_false other).symm
          | cons c kept =>
              rw [hkept] at hback
              rw [(List.cons.inj hback).1]
              rfl

/-- A line is judged by the first element that is no white space, and the one behind it. -/
theorem keepLine_append_cons (blank : ∀ a ∈ front, isSpace (char a) = true)
    (ha : isSpace (char a) = false) (rest : List α) :
    keepLine char (front ++ a :: rest) =
      !(decide (char a = '-') && ahead (kindOf ∘ char) false rest) := by
  have dashes : ∀ text : List α, ['-', '-'].isPrefixOf ((a :: text).map char) =
      (decide (char a = '-') && ahead (kindOf ∘ char) false text) := by
    intro text
    cases text with
    | nil => simp [ahead, List.isPrefixOf]
    | cons b text => simp [ahead, List.isPrefixOf, Bool.beq_eq_decide_eq, eq_comm (a := '-')]
  rw [keepLine, strip_append_cons (p := isSpace ∘ char) blank ha, dashes, ahead_rdropWhile]
  rfl

end Kept

section Statements

variable {α : Type*} {char : α → Char} {newline a : α} {script chunk statement : List α}
variable {line lines : List α}

/-- An element where the split cuts a script. -/
def isCut (char : α → Char) (a : α) : Bool := isSeparator char a || isBoundary (char a)

/-- The lines of a chunk that are kept. -/
def keptLines (char : α → Char) (chunk : List α) : List (List α) :=
  (chunk.splitOnP (isBoundary ∘ char)).filter (keepLine char)

/-- These lines, joined again. -/
def keptText (char : α → Char) (newline : α) (chunk : List α) : List α :=
  [newline].intercalate (keptLines char chunk)

theorem chunkStatement_eq (char : α → Char) (newline : α) (chunk : List α) :
    chunkStatement char newline chunk = if (keptLines char chunk).isEmpty then none
      else some (strip (isSpace ∘ char) (keptText char newline chunk)) := by
  rw [chunkStatement, filter_splitlines]
  rfl

/-- Each statement comes from the lines that are kept of one chunk. -/
theorem mem_splitStatementsOf : statement ∈ splitStatementsOf char newline script ↔
    ∃ chunk ∈ script.splitOnP (isSeparator char), keptLines char chunk ≠ [] ∧
      strip (isSpace ∘ char) (keptText char newline chunk) = statement := by
  simp only [splitStatementsOf, List.mem_filterMap, chunkStatement_eq, Option.ite_none_left_eq_some,
    List.isEmpty_iff, Option.some_inj, ne_eq]

theorem mem_intercalate {lines : List (List α)} (h : a ∈ [newline].intercalate lines) :
    a = newline ∨ ∃ line ∈ lines, a ∈ line :=
  mem_joinLines (List.mem_append_left _ h)

theorem mem_chunk (h : a ∈ strip (isSpace ∘ char) (keptText char newline chunk))
    (other : a ≠ newline) : a ∈ chunk := by
  obtain ⟨line, hline, ha⟩ := (mem_intercalate (mem_of_mem_strip h)).resolve_left other
  exact (infix_of_mem_splitOnP (List.mem_filter.mp hline).1).subset ha

/-- The lines of the chunks are what lies between the cuts. -/
theorem mem_splitOnP_isCut : line ∈ script.splitOnP (isCut char) ↔
    ∃ chunk ∈ script.splitOnP (isSeparator char),
      line ∈ chunk.splitOnP (isBoundary ∘ char) := by
  have pieces := splitOnP_or (isSeparator char) (isBoundary ∘ char) script
  rw [show script.splitOnP (isCut char) = _ from pieces, List.mem_flatMap]

/-- What is in a statement is in one of these lines, which is kept. -/
theorem exists_keptLine (h : statement ∈ splitStatementsOf char newline script)
    (ha : a ∈ statement) (other : a ≠ newline) :
    ∃ line ∈ script.splitOnP (isCut char), keepLine char line = true ∧ a ∈ line := by
  obtain ⟨chunk, hchunk, -, rfl⟩ := mem_splitStatementsOf.mp h
  obtain ⟨line, hline, ha⟩ := (mem_intercalate (mem_of_mem_strip ha)).resolve_left other
  obtain ⟨hline, kept⟩ := List.mem_filter.mp hline
  exact ⟨line, mem_splitOnP_isCut.mpr ⟨chunk, hchunk, hline⟩, kept, ha⟩

end Statements

section Run

variable {R : Type} {serves : ℕ → List (Page R)}

/-- The statement of a request that posts one. -/
def Event.posted : Event → Option String
  | .post sql => some sql
  | .get _ => none

theorem posted_requests (sql : String) (pages : List (Page R)) :
    (requests sql pages).filterMap Event.posted = [sql] := by
  have links : ((pages.filterMap Page.link).map Event.get).filterMap Event.posted = [] := by
    simp [Event.posted]
  rw [requests, List.filterMap_cons, links]
  rfl

/-- A script without failed queries posts its statements, in order. -/
theorem runScript_posts (script : String) (served : ∀ i, Served (serves i))
    (free : ∀ i, ∀ p ∈ serves i, ¬p.Failed) :
    (runScript script serves).1.filterMap Event.posted = splitStatements script ∧
      (runScript script serves).2 = .ok () := by
  have entries : ∀ e ∈ (splitStatements script).mapIdx fun i sql => (sql, serves i),
      Served e.2 ∧ ErrorFree e := by
    intro e he
    obtain ⟨i, hi, rfl⟩ := List.mem_mapIdx.mp he
    exact ⟨served i, free i⟩
  have ran := runStatements_append (fun e he => (entries e he).1) (fun e he => (entries e he).2) []
  rw [List.append_nil, runStatements, List.append_nil] at ran
  rw [runScript, ran]
  refine ⟨?_, rfl⟩
  simp only [List.filterMap_flatMap, posted_requests]
  rw [← List.map_eq_flatMap]
  exact List.ext_getElem (by simp) fun i hi _ => by simp

end Run

section Map

variable {α β : Type*} (char : β → Char) (f : α → β)

theorem keepLine_map (line : List α) : keepLine char (line.map f) = keepLine (char ∘ f) line := by
  rw [keepLine, keepLine, strip_map, List.map_map, List.isEmpty_map]
  rfl

theorem keptLines_map (chunk : List α) :
    keptLines char (chunk.map f) = (keptLines (char ∘ f) chunk).map (List.map f) := by
  rw [keptLines, splitOnP_map, List.filter_map]
  congr 1
  exact List.filter_congr fun line _ => keepLine_map char f line

theorem map_intercalate (newline : α) (lines : List (List α)) :
    ([newline].intercalate lines).map f = [f newline].intercalate (lines.map (List.map f)) := by
  induction lines with
  | nil => rfl
  | cons line lines ih =>
      cases lines with
      | nil => simp [List.intercalate_singleton]
      | cons next lines =>
          rw [List.intercalate_cons_cons, List.map_append, List.map_append, ih]
          exact List.intercalate_cons_cons.symm

theorem chunkStatement_map (newline : α) (chunk : List α) :
    chunkStatement char (f newline) (chunk.map f) =
      (chunkStatement (char ∘ f) newline chunk).map (List.map f) := by
  rw [chunkStatement_eq, chunkStatement_eq, keptLines_map, List.isEmpty_map]
  split
  · rfl
  · rw [Option.map_some, keptText, keptLines_map, ← map_intercalate, strip_map]
    rfl

/-- The split looks at the characters only. -/
theorem splitStatementsOf_map (newline : α) (script : List α) :
    splitStatementsOf char (f newline) (script.map f) =
      (splitStatementsOf (char ∘ f) newline script).map (List.map f) := by
  rw [splitStatementsOf, splitOnP_map, List.filterMap_map, splitStatementsOf, List.map_filterMap]
  congr 1
  exact funext (chunkStatement_map char f newline)

end Map

end PaymentsPlatform.Trino
