import PaymentsPlatform.Silver.Envelope
import PaymentsPlatform.Silver.Events

/-!
# The data-quality contract of the silver rows

`SilverRow.Conforms` is the contract in plain terms. `passesQuality` is what the rules
of `_validate_upserts` check, and it differs in one point: `$` also matches in front
of a line terminator that ends the text, so a code of the right length followed by one
passes (`conforms_iff`).

`writes` says which rows a call that returns adds to the table, and `contract_iff`
lifts the step to runs: the contract holds in every state a run reaches exactly when
no call of the run writes a code that ends in a line terminator.
-/

namespace PaymentsPlatform.Silver

variable {Value Double : Type}

section Definitions

/-- Exactly `n` letters, each of them A to Z. -/
def IsCode (n : Nat) (text : String) : Prop :=
  text.toList.length = n ∧ ∀ c ∈ text.toList, 'A' ≤ c ∧ c ≤ 'Z'

/-- The contract of a silver row. -/
structure SilverRow.Conforms (r : SilverRow) : Prop where
  paymentId : ∃ k, r.paymentId = some k
  merchantId : ∃ m, r.merchantId = some m
  amount : ∃ a, r.amount = some a ∧ 0 ≤ a
  currency : ∃ code, r.currency = some code ∧ IsCode 3 code
  paymentMethod : ∃ method ∈ allowedPaymentMethods, r.paymentMethod = some method
  paymentStatus : ∃ status ∈ allowedPaymentStatuses, r.paymentStatus = some status
  countryCode : ∃ code, r.countryCode = some code ∧ IsCode 2 code
  timestamps : ∃ created updated, r.createdAt = some created ∧ r.updatedAt = some updated ∧
    created ≤ updated
  sourceLsn : ∃ l, r.sourceLsn = some l

/-- The line terminators of `java.util.regex`. -/
def isLineTerminator (c : Char) : Bool :=
  c == '\n' || c == '\r' || c == Char.ofNat 0x85 || c == Char.ofNat 0x2028 ||
    c == Char.ofNat 0x2029

def endsInLineTerminator (text : String) : Bool := text.toList.getLast?.any isLineTerminator

/-- Neither code of the row ends in a line terminator. -/
def Unterminated (r : SilverRow) : Prop :=
  (∀ code, r.currency = some code → endsInLineTerminator code = false) ∧
    ∀ code, r.countryCode = some code → endsInLineTerminator code = false

variable (sp : SparkFunctions Value Double)

/-- The upsert `w` of `k` gets past every guard of the batch: the batch keeps it, the
rejects can be recorded, all upserts pass the rules, and it is newer than every row of
`k`. -/
structure Admitted (tables : Tables Value) (batch : MicroBatch Value) (k : Int) (w : Projected) :
    Prop where
  wins : batchWinner sp batch k = some w
  upsert : w.op ≠ some cdcDeleteOp
  rejects : ∃ dlq, recordRejects sp batch tables.dlq = some dlq
  valid : validateUpserts (upsertsOf (batchChanges sp batch)) = .ok ()
  fresh : ∀ t ∈ rowsOf tables.silver k, (newer t w.toChange).holds = true

/-- No upsert that gets past every guard has a code that ends in a line terminator. -/
def AdmitsUnterminated (tables : Tables Value) (batch : MicroBatch Value) : Prop :=
  ∀ k w, Admitted sp tables batch k w → Unterminated w.toSilverRow

end Definitions

variable {sp : SparkFunctions Value Double} {batch : MicroBatch Value}
variable {tables tables' : Tables Value} {k : Int} {w : Projected} {r : SilverRow}

theorem isUpper_iff {c : Char} : c.isUpper = true ↔ 'A' ≤ c ∧ c ≤ 'Z' := by
  rw [Char.isUpper, decide_eq_true_eq]
  exact Iff.rfl

theorem not_isLineTerminator_of_isUpper {c : Char} (upper : c.isUpper = true) :
    isLineTerminator c = false := by
  by_contra terminator
  rw [Bool.not_eq_false, isLineTerminator] at terminator
  simp only [Bool.or_eq_true, beq_iff_eq] at terminator
  rcases terminator with (((rfl | rfl) | rfl) | rfl) | rfl <;>
    exact absurd upper (by decide +kernel)

set_option linter.auxLemma false in
/-- The patterns of `endsInput` that start with another character than `'\r'`. -/
private theorem endsInput_cons {c : Char} {rest : List Char} (hc : c ≠ '\r') :
    endsInput (c :: rest) = (rest.isEmpty && isLineTerminator c) := by
  delta endsInput endsInput.match_1
  cases rest <;> simp [hc, isLineTerminator]

set_option linter.auxLemma false in
private theorem endsInput_return {d : Char} {rest : List Char} (hd : d ≠ '\n') :
    endsInput ('\r' :: d :: rest) = false := by
  delta endsInput endsInput.match_1
  simp [hd]

/-- What may follow a match of `$` ends in a line terminator, if there is anything. -/
theorem endsInput_cases {rest : List Char} (ends : endsInput rest = true) :
    rest = [] ∨ rest.getLast?.any isLineTerminator = true := by
  cases rest with
  | nil => exact .inl rfl
  | cons c rest =>
      right
      by_cases hc : c = '\r'
      · subst hc
        cases rest with
        | nil => rfl
        | cons d rest =>
            by_cases hd : d = '\n'
            · subst hd
              cases rest with
              | nil => rfl
              | cons e rest => cases ends
            · rw [endsInput_return hd] at ends
              cases ends
      · rw [endsInput_cons hc, Bool.and_eq_true, List.isEmpty_iff] at ends
        rw [ends.1]
        exact ends.2

/-- The regular expression accepts a code, or a code followed by a line terminator. -/
theorem isCode_iff {n : Nat} {text : String} :
    IsCode n text ↔ matchesUpper n text = true ∧ endsInLineTerminator text = false := by
  rw [matchesUpper, endsInLineTerminator, IsCode, Bool.and_eq_true, Bool.and_eq_true,
    decide_eq_true_eq, List.all_eq_true]
  constructor
  · rintro ⟨hlength, hupper⟩
    have whole : text.toList.take n = text.toList := List.take_of_length_le hlength.le
    have nothing : text.toList.drop n = [] := List.drop_of_length_le hlength.le
    rw [whole, nothing]
    refine ⟨⟨⟨hlength, fun c hc => isUpper_iff.mpr (hupper c hc)⟩, rfl⟩, ?_⟩
    cases hlast : text.toList.getLast? with
    | none => rfl
    | some c =>
        exact not_isLineTerminator_of_isUpper
          (isUpper_iff.mpr (hupper c (List.mem_of_getLast? hlast)))
  · rintro ⟨⟨⟨hlength, hupper⟩, ends⟩, unterminated⟩
    have nothing : text.toList.drop n = [] := by
      by_contra something
      have last : (text.toList.drop n).getLast? = text.toList.getLast? := by
        rw [List.getLast?_drop, if_neg]
        exact fun short => something (List.drop_of_length_le short)
      have terminated := (endsInput_cases ends).resolve_left something
      rw [last, unterminated] at terminated
      cases terminated
    have whole : text.toList.take n = text.toList :=
      List.take_of_length_le (List.drop_eq_nil_iff.mp nothing)
    rw [whole] at hlength hupper
    exact ⟨hlength, fun c hc => isUpper_iff.mp (hupper c hc)⟩

theorem not_isNull_iff {α : Type} {column : Option α} :
    (Sql.isNull column).holds = false ↔ ∃ x, column = some x := by
  cases column <;> simp

/-- A column that is neither NULL nor flagged by a negated condition meets it. -/
theorem not_flagged_iff {α : Type} {column : Option α} {p : α → Bool} :
    (Sql.isNull column).holds = false ∧ (Sql.Truth.not (column.map p)).holds = false ↔
      ∃ x, column = some x ∧ p x = true := by
  cases column <;> simp [Sql.Truth.not]

theorem not_negative_iff {amount : Option Int} :
    (Sql.isNull amount).holds = false ∧ (Sql.lt amount (some 0)).holds = false ↔
      ∃ a, amount = some a ∧ 0 ≤ a := by
  cases amount <;> simp [Sql.lt]

theorem not_backwards_iff {created updated : Option Int} :
    (Sql.isNull created).holds = false ∧ (Sql.isNull updated).holds = false ∧
        (Sql.lt updated created).holds = false ↔
      ∃ c u, created = some c ∧ updated = some u ∧ c ≤ u := by
  cases created <;> cases updated <;> simp [Sql.lt]

/-- The rules, as a condition on each column. -/
theorem passesQuality_iff : passesQuality r = true ↔
    (∃ k, r.paymentId = some k) ∧ (∃ m, r.merchantId = some m) ∧
    (∃ a, r.amount = some a ∧ 0 ≤ a) ∧
    (∃ code, r.currency = some code ∧ matchesUpper 3 code = true) ∧
    (∃ method, r.paymentMethod = some method ∧ decide (method ∈ allowedPaymentMethods) = true) ∧
    (∃ status, r.paymentStatus = some status ∧ decide (status ∈ allowedPaymentStatuses) = true) ∧
    (∃ code, r.countryCode = some code ∧ matchesUpper 2 code = true) ∧
    (∃ created updated, r.createdAt = some created ∧ r.updatedAt = some updated ∧
      created ≤ updated) ∧
    ∃ l, r.sourceLsn = some l := by
  rw [← not_isNull_iff, ← not_isNull_iff, ← not_negative_iff, ← not_flagged_iff,
    ← not_flagged_iff, ← not_flagged_iff, ← not_flagged_iff, ← not_backwards_iff,
    ← not_isNull_iff]
  simp only [passesQuality, qualityMetrics, List.all_cons, List.all_nil, Bool.and_true,
    Bool.and_eq_true, Bool.not_eq_true', and_assoc, rlikeUpper, Sql.isIn]

/-- A row conforms exactly when it passes the rules and neither code ends in a line
terminator. -/
theorem conforms_iff : r.Conforms ↔ passesQuality r = true ∧ Unterminated r := by
  rw [passesQuality_iff]
  constructor
  · intro h
    obtain ⟨currency, hcurrency, codeOfCurrency⟩ := h.currency
    obtain ⟨country, hcountry, codeOfCountry⟩ := h.countryCode
    obtain ⟨currencyMatches, currencyEnds⟩ := isCode_iff.mp codeOfCurrency
    obtain ⟨countryMatches, countryEnds⟩ := isCode_iff.mp codeOfCountry
    obtain ⟨method, hmethod, isMethod⟩ := h.paymentMethod
    obtain ⟨status, hstatus, isStatus⟩ := h.paymentStatus
    refine ⟨⟨h.paymentId, h.merchantId, h.amount, ⟨currency, hcurrency, currencyMatches⟩,
      ⟨method, isMethod, decide_eq_true hmethod⟩, ⟨status, isStatus, decide_eq_true hstatus⟩,
      ⟨country, hcountry, countryMatches⟩, h.timestamps, h.sourceLsn⟩, ?_, ?_⟩
    · rintro code hcode
      rw [hcurrency] at hcode
      exact Option.some.inj hcode ▸ currencyEnds
    · rintro code hcode
      rw [hcountry] at hcode
      exact Option.some.inj hcode ▸ countryEnds
  · rintro ⟨⟨hid, hmerchant, hamount, ⟨currency, hcurrency, currencyMatches⟩,
      ⟨method, isMethod, hmethod⟩, ⟨status, isStatus, hstatus⟩,
      ⟨country, hcountry, countryMatches⟩, htimestamps, hlsn⟩, currencyEnds, countryEnds⟩
    exact
      { paymentId := hid
        merchantId := hmerchant
        amount := hamount
        currency := ⟨currency, hcurrency,
          isCode_iff.mpr ⟨currencyMatches, currencyEnds currency hcurrency⟩⟩
        paymentMethod := ⟨method, of_decide_eq_true hmethod, isMethod⟩
        paymentStatus := ⟨status, of_decide_eq_true hstatus, isStatus⟩
        countryCode := ⟨country, hcountry,
          isCode_iff.mpr ⟨countryMatches, countryEnds country hcountry⟩⟩
        timestamps := htimestamps
        sourceLsn := hlsn }

/-- A row of the cell's payment is the row of the cell. -/
theorem Keyed.mem_rowsOf_iff {silver : List SilverRow} (keyed : Keyed silver) :
    r ∈ rowsOf silver k ↔ ∃ l, cellOf silver k = some (l, r) := by
  rw [keyed.rowsOf_eq]
  simp

/-- The change of a batch, in terms of the event the batch keeps. -/
theorem changeAt_eq_some {e : Sequenced.Change Int SilverRow} : changeAt sp batch k = some e ↔
    ∃ w, batchWinner sp batch k = some w ∧ w.sourceLsn = some e.token ∧
      e.value = if w.op = some cdcDeleteOp then none else some w.toSilverRow := by
  rw [changeAt, Option.bind_eq_some_iff]
  refine exists_congr fun w => and_congr_right fun _ => ?_
  rw [Change.sequenced, Option.map_eq_some_iff]
  obtain ⟨token, value⟩ := e
  simp [eq_comm]

/-- An upsert that gets past every guard is in the table after the call. -/
theorem Admitted.mem_afterBatch (keyed : Keyed tables.silver)
    (admitted : Admitted sp tables batch k w) :
    w.toSilverRow ∈ (afterBatch sp tables batch).silver := by
  have returns : Returns sp tables batch := returns_iff.mpr ⟨admitted.rejects, admitted.valid⟩
  obtain ⟨l, hl⟩ := sourceLsn_of_passesQuality
    (winner_passes admitted.valid admitted.wins admitted.upsert)
  have hc : changeAt sp batch k = some ⟨l, some w.toSilverRow⟩ :=
    changeAt_eq_some.mpr ⟨w, admitted.wins, hl, (if_neg admitted.upsert).symm⟩
  have cell := cellOf_afterBatch keyed returns k
  rw [hc, Option.toList_some, Sequenced.Cell.run_cons, Sequenced.Cell.run_nil,
    Sequenced.Cell.apply_of_newer] at cell
  · exact (mem_rowsOf.mp ((keyed_afterBatch sp batch keyed).mem_rowsOf_iff.mpr ⟨l, cell⟩)).1
  · rintro ⟨held, t⟩ hcell
    have ht : t ∈ rowsOf tables.silver k := keyed.mem_rowsOf_iff.mpr ⟨held, hcell⟩
    obtain ⟨l', hl', hlt⟩ :=
      (newer_holds (stamped_cellOf tables.silver k _ hcell).2).mp (admitted.fresh t ht)
    rw [hl] at hl'
    exact Option.some.inj hl' ▸ hlt

/-- Every row after a call was there before or is an upsert that got past every guard. -/
theorem mem_afterBatch_cases (keyed : Keyed tables.silver)
    (hr : r ∈ (afterBatch sp tables batch).silver) :
    r ∈ tables.silver ∨ ∃ k w, Admitted sp tables batch k w ∧ w.toSilverRow = r := by
  by_cases returns : Returns sp tables batch
  · have keyed' := keyed_afterBatch sp batch keyed
    obtain ⟨k, hk⟩ := keyed'.identified r hr
    obtain ⟨l, hcell⟩ := keyed'.mem_rowsOf_iff.mp (mem_rowsOf.mpr ⟨hr, hk⟩)
    have cell := cellOf_afterBatch keyed returns k
    rw [hcell] at cell
    have kept : some (l, r) = cellOf tables.silver k → r ∈ tables.silver := fun hheld =>
      (mem_rowsOf.mp (keyed.mem_rowsOf_iff.mpr ⟨l, hheld.symm⟩)).1
    cases hc : changeAt sp batch k with
    | none =>
        rw [hc] at cell
        exact .inl (kept cell)
    | some e =>
        rw [hc, Option.toList_some, Sequenced.Cell.run_cons, Sequenced.Cell.run_nil] at cell
        rcases Sequenced.Cell.apply_cases (cellOf tables.silver k) e with same | ⟨decided, older⟩
        · exact .inl (kept (cell.trans same))
        · right
          obtain ⟨w, hw, hl, hvalue⟩ := changeAt_eq_some.mp hc
          obtain ⟨row, hrow, hpair⟩ := Option.map_eq_some_iff.mp (cell.trans decided).symm
          rw [hvalue, Option.ite_none_left_eq_some] at hrow
          obtain ⟨upsert, hrow⟩ := hrow
          obtain ⟨rejects, valid⟩ := returns_iff.mp returns
          refine ⟨k, w, ⟨hw, upsert, rejects, valid, fun t ht => ?_⟩, ?_⟩
          · obtain ⟨held, hheld⟩ := keyed.mem_rowsOf_iff.mp ht
            exact (newer_holds (stamped_cellOf tables.silver k _ hheld).2).mpr
              ⟨e.token, hl, older _ hheld⟩
          · exact (Option.some.inj hrow).trans (congrArg Prod.snd hpair)
  · exact .inl (afterBatch_silver_of_raises returns ▸ hr)

/-- What the tables of a run keep: they are keyed and their rows passed the rules. -/
structure Checked (tables : Tables Value) : Prop where
  keyed : Keyed tables.silver
  passed : ∀ r ∈ tables.silver, passesQuality r = true

theorem Checked.afterBatch (sp : SparkFunctions Value Double) (batch : MicroBatch Value)
    (checked : Checked tables) : Checked (afterBatch sp tables batch) where
  keyed := keyed_afterBatch sp batch checked.keyed
  passed r hr := by
    rcases mem_afterBatch_cases checked.keyed hr with old | ⟨k, w, admitted, rfl⟩
    · exact checked.passed r old
    · exact winner_passes admitted.valid admitted.wins admitted.upsert

theorem checked_afterBatches (sp : SparkFunctions Value Double) (dlq : List (DlqRow Value))
    (batches : List (MicroBatch Value)) : Checked (afterBatches sp ⟨[], dlq⟩ batches) :=
  Machine.run_invariant ⟨keyed_nil, by simp⟩ (fun _ batch checked => checked.afterBatch sp batch)
    batches

/-- One call keeps the contract exactly when every upsert it admits is unterminated. -/
theorem conforms_afterBatch_iff (keyed : Keyed tables.silver)
    (conforms : ∀ r ∈ tables.silver, r.Conforms) :
    (∀ r ∈ (afterBatch sp tables batch).silver, r.Conforms) ↔
      AdmitsUnterminated sp tables batch := by
  constructor
  · intro after k w admitted
    exact (conforms_iff.mp (after _ (admitted.mem_afterBatch keyed))).2
  · intro unterminated r hr
    rcases mem_afterBatch_cases keyed hr with old | ⟨k, w, admitted, rfl⟩
    · exact conforms r old
    · exact conforms_iff.mpr ⟨winner_passes admitted.valid admitted.wins admitted.upsert,
        unterminated k w admitted⟩

/-- In every run from an empty silver table, all rows of all states satisfy the contract
exactly when no call admits an upsert with a code that ends in a line terminator. -/
theorem contract_iff (sp : SparkFunctions Value Double) (dlq : List (DlqRow Value))
    (batches : List (MicroBatch Value)) :
    Machine.Always (afterBatch sp) (fun tables => ∀ r ∈ tables.silver, r.Conforms) ⟨[], dlq⟩
        batches ↔
      Machine.Along (afterBatch sp) (AdmitsUnterminated sp) ⟨[], dlq⟩ batches :=
  Machine.always_iff_along (I := fun tables : Tables Value => Keyed tables.silver) keyed_nil
    (fun _ batch keyed => keyed_afterBatch sp batch keyed) (by simp)
    fun _ _ keyed conforms => conforms_afterBatch_iff keyed conforms

/-- A create event whose currency is `USD` and a line feed. -/
def terminatedCurrency : Envelope :=
  ((envelope "c" 1 10 "pending").filter fun field => field.1 ≠ "$.after.currency") ++
    [("$.after.currency", "USD\n")]

/-- Silver holds the currency with its line feed. -/
theorem terminatedCurrency_stored :
    ¬Machine.Always (afterBatch sampleSpark) (fun tables => ∀ r ∈ tables.silver, r.Conforms)
      ⟨[], []⟩ [sampleBatch 1 [recordAt 0 terminatedCurrency]] := by
  intro always
  have stored : ∃ r ∈ (Machine.run (afterBatch sampleSpark) ⟨[], []⟩
      [sampleBatch 1 [recordAt 0 terminatedCurrency]]).silver, r.currency = some "USD\n" := by
    decide
  obtain ⟨r, hr, hcurrency⟩ := stored
  obtain ⟨code, hcode, hlength, _⟩ := (always.final r hr).currency
  rw [hcurrency] at hcode
  cases hcode
  exact absurd hlength (by decide)

end PaymentsPlatform.Silver
