import PaymentsPlatform.Text.Pieces

/-!
# Scripts with comments and literals

The lexical layer of a script: line comments behind two dashes, literals in quotes, and
separators outside of both. Each element gets a symbol that tells what it is there (`scan`);
what lies between gaps is a lexeme, and what lies between separators a statement.
-/

namespace PaymentsPlatform.Text.Lexical

/-- What an element is apart from its context. Both of `newline` and `carriageReturn` end a
comment. -/
inductive Kind where
  | dash
  | quote
  | separator
  | newline
  | carriageReturn
  | space
  | other
  deriving DecidableEq, Repr

/-- White space, in a context where it is that. -/
def Kind.blank : Kind → Bool
  | .newline | .carriageReturn | .space => true
  | _ => false

inductive Context where
  | plain
  | literal
  | comment
  deriving DecidableEq, Repr

/-- An element in its context. A separator in a comment is a `cut`; which newline stands in a
literal does not matter. -/
inductive Symbol (α : Type*) where
  | gap
  | cut
  | sep
  | ch (a : α)
  | lit (a : α)
  | newline
  deriving DecidableEq

section Scan

variable {α : Type*} (kind : α → Kind)

/-- The symbol of an element; `ahead` tells whether a dash is next. -/
def symbol (x : Context) (a : α) (ahead : Bool) : Symbol α :=
  match x, kind a with
  | .plain, .dash => if ahead then .gap else .ch a
  | .plain, .quote => .lit a
  | .plain, .separator => .sep
  | .plain, .other => .ch a
  | .plain, _ => .gap
  | .literal, .newline => .newline
  | .literal, _ => .lit a
  | .comment, .separator => .cut
  | .comment, _ => .gap

/-- The context behind an element. -/
def next (x : Context) (a : α) (ahead : Bool) : Context :=
  match x, kind a with
  | .plain, .dash => if ahead then .comment else .plain
  | .plain, .quote => .literal
  | .plain, _ => .plain
  | .literal, .quote => .plain
  | .literal, _ => .literal
  | .comment, .newline => .plain
  | .comment, .carriageReturn => .plain
  | .comment, _ => .comment

/-- Whether a text starts with a dash; `behind` tells it for what follows an empty one. -/
def ahead (behind : Bool) : List α → Bool
  | [] => behind
  | a :: _ => kind a = .dash

/-- The symbols of a text that is read in a context; `behind` tells whether a dash follows. -/
def scanFrom (behind : Bool) (x : Context) : List α → List (Symbol α)
  | [] => []
  | a :: text =>
      symbol kind x a (ahead kind behind text) ::
        scanFrom behind (next kind x a (ahead kind behind text)) text

/-- The context behind a text. -/
def afterFrom (behind : Bool) (x : Context) : List α → Context
  | [] => x
  | a :: text => afterFrom behind (next kind x a (ahead kind behind text)) text

def scan (x : Context) (text : List α) : List (Symbol α) := scanFrom kind false x text

def after (x : Context) (text : List α) : Context := afterFrom kind false x text

end Scan

section Lexemes

variable {α : Type*}

def Symbol.isGap : Symbol α → Bool
  | .gap | .cut => true
  | _ => false

def Symbol.isSep : Symbol α → Bool
  | .sep => true
  | _ => false

/-- The element that the symbol shows. -/
def Symbol.mark : Symbol α → Option α
  | .ch a => some a
  | .lit a => some a
  | _ => none

/-- Some element is shown. -/
def Visible (symbols : List (Symbol α)) : Prop := ∃ σ ∈ symbols, ∃ a, σ.mark = some a

/-- What lies between gaps. -/
def lexemes (symbols : List (Symbol α)) : List (List (Symbol α)) :=
  (symbols.splitOnP Symbol.isGap).filter fun word => !word.isEmpty

/-- What lies between separators, without what has no lexeme. -/
def statements (symbols : List (Symbol α)) : List (List (List (Symbol α))) :=
  ((symbols.splitOnP Symbol.isSep).map lexemes).filter fun statement => !statement.isEmpty

end Lexemes

section Append

variable {α : Type*} {kind : α → Kind} {behind : Bool} {x : Context} {a b : α} {s t : List α}

theorem ahead_append (behind : Bool) (s t : List α) :
    ahead kind behind (s ++ t) = ahead kind (ahead kind behind t) s := by
  cases s <;> rfl

theorem afterFrom_append (behind : Bool) (x : Context) (s t : List α) :
    afterFrom kind behind x (s ++ t) =
      afterFrom kind behind (afterFrom kind (ahead kind behind t) x s) t := by
  induction s generalizing x with
  | nil => rfl
  | cons a s ih => rw [List.cons_append, afterFrom, afterFrom, ahead_append, ih]

/-- The symbols of a text behind another one. -/
theorem scanFrom_append (behind : Bool) (x : Context) (s t : List α) :
    scanFrom kind behind x (s ++ t) = scanFrom kind (ahead kind behind t) x s ++
      scanFrom kind behind (afterFrom kind (ahead kind behind t) x s) t := by
  induction s generalizing x with
  | nil => rfl
  | cons a s ih =>
      rw [List.cons_append, scanFrom, scanFrom, afterFrom, ahead_append, ih, List.cons_append]

theorem symbol_of_ne_dash (h : kind a ≠ .dash) (x : Context) (ahead : Bool) :
    symbol kind x a ahead = symbol kind x a false := by
  unfold symbol
  cases x <;> cases hkind : kind a <;> first | rfl | exact absurd hkind h

theorem next_of_ne_dash (h : kind a ≠ .dash) (x : Context) (ahead : Bool) :
    next kind x a ahead = next kind x a false := by
  unfold next
  cases x <;> cases hkind : kind a <;> first | rfl | exact absurd hkind h

theorem ahead_cons_of_ne_dash (h : kind b ≠ .dash) (behind : Bool) (t : List α) :
    ahead kind behind (b :: t) = false := decide_eq_false h

/-- The symbols of a text in front of an element that is no dash, of this element and of what
is behind it. -/
theorem scan_append_cons (h : kind b ≠ .dash) (x : Context) (s t : List α) :
    scan kind x (s ++ b :: t) = scan kind x s ++
      symbol kind (after kind x s) b false ::
        scan kind (next kind (after kind x s) b false) t := by
  rw [scan, scanFrom_append, ahead_cons_of_ne_dash h, scanFrom, symbol_of_ne_dash h,
    next_of_ne_dash h]
  rfl

theorem after_append_cons (h : kind b ≠ .dash) (x : Context) (s t : List α) :
    after kind x (s ++ b :: t) = after kind (next kind (after kind x s) b false) t := by
  rw [after, afterFrom_append, ahead_cons_of_ne_dash h, afterFrom, next_of_ne_dash h]
  rfl

theorem scan_cons (h : kind b ≠ .dash) (x : Context) (t : List α) :
    scan kind x (b :: t) = symbol kind x b false :: scan kind (next kind x b false) t :=
  scan_append_cons h x [] t

theorem after_cons (h : kind b ≠ .dash) (x : Context) (t : List α) :
    after kind x (b :: t) = after kind (next kind x b false) t := after_append_cons h x [] t

/-- A text without a dash at its end, and what is behind it. -/
theorem scan_append (last : ∀ b ∈ s.getLast?, kind b ≠ .dash) (x : Context) (t : List α) :
    scan kind x (s ++ t) = scan kind x s ++ scan kind (after kind x s) t := by
  cases s using List.reverseRecOn with
  | nil => rfl
  | append_singleton s b =>
      have hb := last b (by simp)
      rw [List.append_assoc, List.singleton_append, scan_append_cons hb, scan_append_cons hb,
        after_append_cons hb, List.append_assoc]
      rfl

end Append

section Kinds

variable {α : Type*} {kind : α → Kind} {behind : Bool} {x : Context} {a b : α} {text : List α}

theorem ne_dash_of_blank (h : (kind a).blank = true) : kind a ≠ .dash := by
  intro hdash
  rw [hdash] at h
  cases h

theorem symbol_dash (h : kind a = .dash) (ahead : Bool) :
    symbol kind .plain a ahead = if ahead then .gap else .ch a := by
  unfold symbol
  rw [h]

theorem next_dash (h : kind a = .dash) (ahead : Bool) :
    next kind .plain a ahead = if ahead then .comment else .plain := by
  unfold next
  rw [h]

/-- In a literal all but newlines is shown. -/
theorem symbol_literal (h : kind a ≠ .newline) (ahead : Bool) :
    symbol kind .literal a ahead = .lit a := by
  unfold symbol
  cases hkind : kind a <;> first | rfl | exact absurd hkind h

theorem symbol_literal_newline (h : kind a = .newline) (ahead : Bool) :
    symbol kind .literal a ahead = .newline := by
  unfold symbol
  rw [h]

/-- A newline ends a comment. -/
theorem next_newline (h : kind a = .newline) (hx : x ≠ .literal) (ahead : Bool) :
    next kind x a ahead = .plain := by
  unfold next
  rw [h]
  cases x <;> first | rfl | exact absurd rfl hx

theorem next_newline_ne_comment (h : kind a = .newline) (x : Context) (ahead : Bool) :
    next kind x a ahead ≠ .comment := by
  unfold next
  rw [h]
  cases x <;> rintro ⟨⟩

theorem next_separator (h : kind a = .separator) (x : Context) (ahead : Bool) :
    next kind x a ahead = x := by
  unfold next
  rw [h]
  cases x <;> rfl

theorem symbol_separator_plain (h : kind a = .separator) (ahead : Bool) :
    symbol kind .plain a ahead = .sep := by
  unfold symbol
  rw [h]

theorem symbol_separator_comment (h : kind a = .separator) (ahead : Bool) :
    symbol kind .comment a ahead = .cut := by
  unfold symbol
  rw [h]

/-- What is no white space is shown outside of comments, unless it separates or opens one. -/
theorem mark_symbol_plain {ahead : Bool} (inside : (kind a).blank = false)
    (other : kind a ≠ .separator) (single : kind a = .dash → ahead = false) :
    (symbol kind .plain a ahead).mark = some a := by
  unfold symbol
  cases hkind : kind a with
  | dash => rw [single hkind]; rfl
  | quote | other => rfl
  | separator => exact absurd hkind other
  | newline | carriageReturn | space => rw [hkind] at inside; cases inside

/-- White space outside of literals. -/
theorem symbol_of_blank (h : (kind a).blank = true) (hx : x ≠ .literal) :
    symbol kind x a false = .gap := by
  unfold symbol
  cases x <;> cases hkind : kind a <;>
    first | rfl | exact absurd rfl hx | (rw [hkind] at h; cases h)

theorem next_of_blank (h : (kind a).blank = true) (hx : x ≠ .literal) :
    next kind x a false ≠ .literal := by
  unfold next
  cases x <;> cases hkind : kind a <;>
    first | exact absurd rfl hx | (rw [hkind] at h; cases h; done) | (intro h; cases h)

theorem next_literal_of_blank (h : (kind a).blank = true) :
    next kind .literal a false = .literal := by
  unfold next
  cases hkind : kind a <;> first | rfl | (rw [hkind] at h; cases h)

theorem mark_symbol {ahead : Bool} (h : (symbol kind x a ahead).mark = some b) : b = a := by
  revert h
  unfold symbol
  split <;> (try split) <;> simp [Symbol.mark, eq_comm]

/-- What is shown is in the text. -/
theorem mem_of_mark {σ : Symbol α} (h : σ ∈ scanFrom kind behind x text)
    (ha : σ.mark = some a) : a ∈ text := by
  induction text generalizing x with
  | nil => cases h
  | cons b text ih =>
      rcases List.mem_cons.mp h with rfl | h
      · rw [mark_symbol ha]
        exact List.mem_cons_self
      · exact List.mem_cons_of_mem _ (ih h)

/-- White space stays outside of literals, and shows nothing. -/
theorem scan_blank (blank : ∀ a ∈ text, (kind a).blank = true) (hx : x ≠ .literal) :
    (∀ σ ∈ scan kind x text, σ = .gap) ∧ after kind x text ≠ .literal := by
  induction text generalizing x with
  | nil => exact ⟨by simp [scan, scanFrom], hx⟩
  | cons a text ih =>
      obtain ⟨ha, blank⟩ := List.forall_mem_cons.mp blank
      obtain ⟨gaps, context⟩ := ih blank (next_of_blank ha hx)
      rw [scan_cons (ne_dash_of_blank ha), after_cons (ne_dash_of_blank ha)]
      exact ⟨List.forall_mem_cons.mpr ⟨symbol_of_blank ha hx, gaps⟩, context⟩

/-- White space in front of a text. -/
theorem scanFrom_plain_blank (blank : ∀ a ∈ text, (kind a).blank = true) (behind : Bool) :
    (∀ σ ∈ scanFrom kind behind .plain text, σ = .gap) ∧
      afterFrom kind behind .plain text = .plain := by
  induction text with
  | nil => exact ⟨by simp [scanFrom], rfl⟩
  | cons a text ih =>
      obtain ⟨ha, blank⟩ := List.forall_mem_cons.mp blank
      have stays : next kind .plain a false = .plain := by
        unfold next
        cases hkind : kind a <;> first | rfl | (rw [hkind] at ha; cases ha)
      rw [scanFrom, afterFrom, symbol_of_ne_dash (ne_dash_of_blank ha),
        next_of_ne_dash (ne_dash_of_blank ha), symbol_of_blank ha (by rintro ⟨⟩), stays]
      exact ⟨List.forall_mem_cons.mpr ⟨rfl, (ih blank).1⟩, (ih blank).2⟩

/-- In a literal white space stays there. -/
theorem afterFrom_literal_blank (blank : ∀ a ∈ text, (kind a).blank = true) (behind : Bool) :
    afterFrom kind behind .literal text = .literal := by
  induction text with
  | nil => rfl
  | cons a text ih =>
      obtain ⟨ha, blank⟩ := List.forall_mem_cons.mp blank
      rw [afterFrom, next_of_ne_dash (ne_dash_of_blank ha), next_literal_of_blank ha, ih blank]

/-- White space behind a text. -/
theorem append_blank (blank : ∀ a ∈ text, (kind a).blank = true) (x : Context) (s : List α) :
    scan kind x (s ++ text) = scan kind x s ++ scan kind (after kind x s) text ∧
      after kind x (s ++ text) = after kind (after kind x s) text := by
  have single : ahead kind false text = false := by
    cases text with
    | nil => rfl
    | cons a text => exact decide_eq_false (ne_dash_of_blank (blank a List.mem_cons_self))
  constructor
  · rw [scan, scanFrom_append, single]
    rfl
  · rw [after, afterFrom_append, single]
    rfl

/-- The rest of a line that is in a comment. -/
theorem scan_comment (h : ∀ a ∈ text, kind a ≠ .separator ∧ kind a ≠ .newline ∧
      kind a ≠ .carriageReturn) (behind : Bool) :
    (∀ σ ∈ scanFrom kind behind .comment text, σ = .gap) ∧
      afterFrom kind behind .comment text = .comment := by
  induction text with
  | nil => exact ⟨by simp [scanFrom], rfl⟩
  | cons a text ih =>
      obtain ⟨⟨hsep, hnewline, hreturn⟩, h⟩ := List.forall_mem_cons.mp h
      have stays : next kind .comment a (ahead kind behind text) = .comment := by
        unfold next
        split <;> simp_all
      have shown : symbol kind .comment a (ahead kind behind text) = .gap := by
        unfold symbol
        split <;> simp_all
      rw [scanFrom, afterFrom, stays, shown]
      exact ⟨List.forall_mem_cons.mpr ⟨rfl, (ih h).1⟩, (ih h).2⟩

/-- Without separators no symbol is one, and none is a cut. -/
theorem not_sep_of_mem (h : ∀ a ∈ text, kind a ≠ .separator) {σ : Symbol α}
    (hσ : σ ∈ scanFrom kind behind x text) : σ.isSep = false ∧ σ ≠ .cut := by
  induction text generalizing x with
  | nil => cases hσ
  | cons a text ih =>
      obtain ⟨ha, h⟩ := List.forall_mem_cons.mp h
      rcases List.mem_cons.mp hσ with rfl | hσ
      · unfold symbol
        split
        all_goals first
          | exact absurd ‹kind a = .separator› ha
          | (split <;> exact ⟨rfl, by rintro ⟨⟩⟩)
          | exact ⟨rfl, by rintro ⟨⟩⟩
      · exact ih h hσ

/-- A literal is opened by a quote. -/
theorem symbol_of_next_literal {ahead : Bool} (hx : x ≠ .literal)
    (h : next kind x a ahead = .literal) : symbol kind x a ahead = .lit a := by
  revert h
  unfold next symbol
  split <;> (try split) <;> simp_all

theorem literal_or_quote {ahead : Bool} (h : next kind x a ahead = .literal) :
    x = .literal ∨ kind a = .quote := by
  revert h
  unfold next
  split <;> (try split) <;> simp_all

theorem lit_mem_scan (h : kind a ≠ .newline) (text : List α) :
    .lit a ∈ scan kind .literal (a :: text) := by
  rw [scan, scanFrom, symbol_literal h]
  exact List.mem_cons_self

theorem kind_of_symbol_newline {ahead : Bool} (h : symbol kind x a ahead = .newline) :
    kind a = .newline := by
  revert h
  unfold symbol
  split <;> (try split) <;> simp_all

/-- Two newlines in a literal, one behind the other, are so in the text. -/
theorem exists_newlines (h : [.newline, .newline] <:+: scanFrom kind behind x text) :
    ∃ a b, [a, b] <:+: text ∧ kind a = .newline ∧ kind b = .newline := by
  induction text generalizing x with
  | nil => cases List.infix_nil.mp h
  | cons a text ih =>
      rw [scanFrom, List.infix_cons_iff] at h
      rcases h with first | later
      · obtain ⟨ha, second⟩ := List.cons_prefix_cons.mp first
        cases text with
        | nil => cases List.prefix_nil.mp second
        | cons b text =>
            rw [scanFrom, List.cons_prefix_cons] at second
            exact ⟨a, b, ⟨[], text, rfl⟩, kind_of_symbol_newline ha.symm,
              kind_of_symbol_newline second.1.symm⟩
      · obtain ⟨b, c, hmem, hb, hc⟩ := ih later
        exact ⟨b, c, hmem.trans (List.suffix_cons a text).isInfix, hb, hc⟩

theorem kind_of_symbol_cut {ahead : Bool} (h : symbol kind x a ahead = .cut) :
    kind a = .separator := by
  revert h
  unfold symbol
  split <;> (try split) <;> simp_all

/-- The separator of a cut, with what is shown on its sides. -/
theorem exists_separator {S T : List (Symbol α)}
    (h : scanFrom kind behind x text = S ++ .cut :: T) : ∃ s c t, text = s ++ c :: t ∧
      kind c = .separator ∧ (∀ σ ∈ S, ∀ a, σ.mark = some a → a ∈ s) ∧
        ∀ σ ∈ T, ∀ a, σ.mark = some a → a ∈ t := by
  induction text generalizing x S with
  | nil => simp [scanFrom] at h
  | cons c text ih =>
      rw [scanFrom] at h
      cases S with
      | nil =>
          obtain ⟨first, rest⟩ := List.cons.inj h
          refine ⟨[], c, text, rfl, kind_of_symbol_cut first, by simp, fun σ hσ a shown => ?_⟩
          rw [← rest] at hσ
          exact mem_of_mark hσ shown
      | cons σ S =>
          obtain ⟨first, rest⟩ := List.cons.inj h
          obtain ⟨s, d, t, rfl, hd, left, right⟩ := ih rest
          refine ⟨c :: s, d, t, rfl, hd, List.forall_mem_cons.mpr ⟨fun a shown => ?_, ?_⟩, right⟩
          · rw [← first] at shown
            rw [mark_symbol shown]
            exact List.mem_cons_self
          · exact fun τ hτ a shown => List.mem_cons_of_mem _ (left τ hτ a shown)

theorem symbol_ne_newline {ahead : Bool} (hx : x ≠ .literal) :
    symbol kind x a ahead ≠ .newline := by
  unfold symbol
  split <;> (try split) <;> simp_all

/-- In front of a newline in a literal something is shown, outside of literals. -/
theorem visible_of_newline (hx : x ≠ .literal) {S T : List (Symbol α)}
    (h : scanFrom kind behind x text = S ++ .newline :: T) : Visible S := by
  induction text generalizing x S with
  | nil => simp [scanFrom] at h
  | cons a text ih =>
      rw [scanFrom] at h
      cases S with
      | nil => exact absurd (List.cons.inj h).1 (symbol_ne_newline hx)
      | cons σ S =>
          obtain ⟨first, rest⟩ := List.cons.inj h
          by_cases opens : next kind x a (ahead kind behind text) = .literal
          · rw [symbol_of_next_literal hx opens] at first
            exact ⟨σ, List.mem_cons_self, a, first ▸ rfl⟩
          · obtain ⟨τ, hτ, shown⟩ := ih opens rest
            exact ⟨τ, List.mem_cons_of_mem _ hτ, shown⟩

end Kinds

section Words

variable {α : Type*} {S T : List (Symbol α)} {σ : Symbol α} {w : List (Symbol α)}

theorem lexemes_append_gap (hσ : σ.isGap = true) (S T : List (Symbol α)) :
    lexemes (S ++ σ :: T) = lexemes S ++ lexemes T := by
  rw [lexemes, List.splitOnP_append_cons S T hσ, List.filter_append]
  rfl

@[simp] theorem lexemes_nil : lexemes ([] : List (Symbol α)) = [] := by
  simp [lexemes]

theorem lexemes_of_gaps (gaps : ∀ σ ∈ S, σ.isGap = true) : lexemes S = [] := by
  induction S with
  | nil => exact lexemes_nil
  | cons σ S ih =>
      obtain ⟨hσ, gaps⟩ := List.forall_mem_cons.mp gaps
      rw [← List.nil_append (σ :: S), lexemes_append_gap hσ, ih gaps, lexemes_nil]
      rfl

theorem isGap_of_mark {a : α} (h : σ.mark = some a) : σ.isGap = false := by
  cases σ <;> first | rfl | cases h

theorem isSep_of_mark {a : α} (h : σ.mark = some a) : σ.isSep = false := by
  cases σ <;> first | rfl | cases h

/-- Gaps in front of some symbols, or behind them, do not matter. -/
theorem lexemes_gaps_append (gaps : ∀ σ ∈ S, σ.isGap = true) (T : List (Symbol α)) :
    lexemes (S ++ T) = lexemes T := by
  induction S with
  | nil => rfl
  | cons σ S ih =>
      obtain ⟨hσ, gaps⟩ := List.forall_mem_cons.mp gaps
      rw [List.cons_append, ← List.nil_append (σ :: (S ++ T)), lexemes_append_gap hσ, lexemes_nil,
        ih gaps]
      rfl

theorem lexemes_append_gaps (S : List (Symbol α)) (gaps : ∀ σ ∈ T, σ.isGap = true) :
    lexemes (S ++ T) = lexemes S := by
  cases T with
  | nil => rw [List.append_nil]
  | cons σ T =>
      obtain ⟨hσ, gaps⟩ := List.forall_mem_cons.mp gaps
      rw [lexemes_append_gap hσ, lexemes_of_gaps gaps, List.append_nil]

/-- Symbols without a gap are in a lexeme. -/
theorem exists_lexeme (nonempty : w ≠ []) (clean : ∀ σ ∈ w, σ.isGap = false) (h : w <:+: S) :
    ∃ word ∈ lexemes S, w <:+: word := by
  obtain ⟨piece, hpiece, hw⟩ := exists_piece clean h
  refine ⟨piece, List.mem_filter.mpr ⟨hpiece, ?_⟩, hw⟩
  cases piece with
  | nil => exact absurd (List.infix_nil.mp hw) nonempty
  | cons σ piece => rfl

theorem infix_of_mem_lexemes (h : w ∈ lexemes S) : w <:+: S :=
  infix_of_mem_splitOnP (List.mem_filter.mp h).1

/-- What is shown is in a lexeme. -/
theorem exists_lexeme_of_mark {a : α} (hσ : σ ∈ S) (shown : σ.mark = some a) :
    ∃ word ∈ lexemes S, σ ∈ word := by
  have clean : ∀ τ ∈ [σ], τ.isGap = false := by
    intro τ hτ
    rw [List.mem_singleton.mp hτ]
    exact isGap_of_mark shown
  obtain ⟨word, hword, hσ⟩ :=
    exists_lexeme (List.cons_ne_nil σ []) clean ((List.singleton_infix_iff σ S).mpr hσ)
  exact ⟨word, hword, (List.singleton_infix_iff σ word).mp hσ⟩

theorem lexemes_ne_nil_of_visible (h : Visible S) : lexemes S ≠ [] := by
  obtain ⟨σ, hσ, a, shown⟩ := h
  obtain ⟨word, hword, -⟩ := exists_lexeme_of_mark hσ shown
  exact List.ne_nil_of_mem hword

end Words

section Statements

variable {α : Type*} {kind : α → Kind} {behind : Bool} {x : Context} {text : List α}
variable {S T p w word : List (Symbol α)} {statement : List (List (Symbol α))} {σ : Symbol α}

theorem statements_append_sep (S T : List (Symbol α)) :
    statements (S ++ .sep :: T) = statements S ++ statements T := by
  rw [statements, List.splitOnP_append_cons S T rfl, List.map_append, List.filter_append]
  rfl

/-- Symbols without a separator are one statement, or none. -/
theorem statements_of_not_sep (clean : ∀ σ ∈ S, σ.isSep = false) :
    statements S = [lexemes S].filter fun statement => !statement.isEmpty := by
  rw [statements, List.splitOnP_eq_singleton clean]
  rfl

theorem statements_eq_nil (clean : ∀ σ ∈ S, σ.isSep = false) (empty : lexemes S = []) :
    statements S = [] := by
  rw [statements_of_not_sep clean, empty]
  rfl

theorem statements_eq_singleton (clean : ∀ σ ∈ S, σ.isSep = false) (nonempty : lexemes S ≠ []) :
    statements S = [lexemes S] := by
  rw [statements_of_not_sep clean]
  exact List.filter_cons_of_pos (by simpa using nonempty)

/-- A part without gaps and separators is in a lexeme of a statement. -/
theorem exists_statement (nonempty : w ≠ []) (inside : ∀ σ ∈ w, σ.isGap = false ∧ σ.isSep = false)
    (h : w <:+: S) : ∃ statement ∈ statements S, ∃ word ∈ statement, w <:+: word := by
  obtain ⟨piece, hpiece, hw⟩ := exists_piece (fun σ hσ => (inside σ hσ).2) h
  obtain ⟨word, hword, hw⟩ := exists_lexeme nonempty (fun σ hσ => (inside σ hσ).1) hw
  refine ⟨lexemes piece, List.mem_filter.mpr ⟨List.mem_map_of_mem hpiece, ?_⟩, word, hword, hw⟩
  simpa using List.ne_nil_of_mem hword

theorem infix_of_mem_statements (h : statement ∈ statements S) (hword : word ∈ statement) :
    word <:+: S := by
  obtain ⟨hstatement, -⟩ := List.mem_filter.mp h
  obtain ⟨piece, hpiece, rfl⟩ := List.mem_map.mp hstatement
  exact (infix_of_mem_lexemes hword).trans (infix_of_mem_splitOnP hpiece)

/-- What has a lexeme in front of a separator shows an element. -/
theorem visible_of_lexemes (hx : x ≠ .literal) (h : scanFrom kind behind x text = p ++ T)
    (clean : ∀ σ ∈ p, σ.isSep = false) (nonempty : lexemes p ≠ []) : Visible p := by
  have some : ∃ σ ∈ p, ¬σ.isGap = true := by
    by_contra none
    push Not at none
    exact nonempty (lexemes_of_gaps none)
  obtain ⟨σ, hσ, inside⟩ := some
  cases σ with
  | gap | cut => exact absurd rfl inside
  | sep => exact absurd (clean _ hσ) (by simp [Symbol.isSep])
  | ch a | lit a => exact ⟨_, hσ, a, rfl⟩
  | newline =>
      obtain ⟨l, r, rfl⟩ := List.append_of_mem hσ
      rw [List.append_assoc] at h
      obtain ⟨τ, hτ, shown⟩ := visible_of_newline hx h
      exact ⟨τ, List.mem_append_left _ hτ, shown⟩

end Statements

section Map

variable {α β : Type*} (kind : β → Kind) (f : α → β)

def Symbol.map (f : α → β) : Symbol α → Symbol β
  | .gap => .gap
  | .cut => .cut
  | .sep => .sep
  | .ch a => .ch (f a)
  | .lit a => .lit (f a)
  | .newline => .newline

@[simp] theorem isGap_map (σ : Symbol α) : (σ.map f).isGap = σ.isGap := by cases σ <;> rfl

@[simp] theorem isSep_map (σ : Symbol α) : (σ.map f).isSep = σ.isSep := by cases σ <;> rfl

theorem ahead_map (behind : Bool) (text : List α) :
    ahead kind behind (text.map f) = ahead (kind ∘ f) behind text := by
  cases text <;> rfl

theorem symbol_map (x : Context) (a : α) (ahead : Bool) :
    symbol kind x (f a) ahead = (symbol (kind ∘ f) x a ahead).map f := by
  unfold symbol
  cases x <;> cases hkind : kind (f a) <;> simp only [Function.comp_apply, hkind] <;>
    cases ahead <;> rfl

theorem next_map (x : Context) (a : α) (ahead : Bool) :
    next kind x (f a) ahead = next (kind ∘ f) x a ahead := rfl

theorem afterFrom_map (behind : Bool) (x : Context) (text : List α) :
    afterFrom kind behind x (text.map f) = afterFrom (kind ∘ f) behind x text := by
  induction text generalizing x with
  | nil => rfl
  | cons a text ih => rw [List.map_cons, afterFrom, afterFrom, ahead_map, next_map, ih]

/-- The symbols of a text that is mapped. -/
theorem scanFrom_map (behind : Bool) (x : Context) (text : List α) :
    scanFrom kind behind x (text.map f) =
      (scanFrom (kind ∘ f) behind x text).map (Symbol.map f) := by
  induction text generalizing x with
  | nil => rfl
  | cons a text ih =>
      rw [List.map_cons, scanFrom, scanFrom, ahead_map, next_map, ih, symbol_map, List.map_cons]

theorem lexemes_map (S : List (Symbol α)) :
    lexemes (S.map (Symbol.map f)) = (lexemes S).map (List.map (Symbol.map f)) := by
  have same : Symbol.isGap ∘ Symbol.map f = Symbol.isGap := funext (isGap_map f)
  rw [lexemes, lexemes, splitOnP_map, same, List.filter_map]
  congr 1
  exact List.filter_congr fun word _ => by simp

theorem statements_map (S : List (Symbol α)) :
    statements (S.map (Symbol.map f)) =
      (statements S).map (List.map (List.map (Symbol.map f))) := by
  have same : Symbol.isSep ∘ Symbol.map f = Symbol.isSep := funext (isSep_map f)
  rw [statements, statements, splitOnP_map, same, List.map_map, List.filter_map, List.filter_map,
    List.map_map]
  have words : lexemes ∘ List.map (Symbol.map f) =
      List.map (List.map (Symbol.map f)) ∘ lexemes := funext (lexemes_map f)
  rw [words]
  congr 1
  exact List.filter_congr fun word _ => by simp

end Map

end PaymentsPlatform.Text.Lexical
