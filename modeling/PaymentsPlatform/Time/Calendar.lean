import PaymentsPlatform.Text.Decimal

/-!
# Calendar dates and timestamps

Python's `datetime.date` and `datetime.datetime`, as far as the platform uses them: the
text of `isoformat` and the instant a timestamp denotes. A timestamp carries a fixed
offset from UTC or none. Its text determines it (`DateTime.isoformat_injective`).
-/

namespace PaymentsPlatform

def isLeapYear (year : Nat) : Bool := year % 4 == 0 && (year % 100 != 0 || year % 400 == 0)

def daysInMonth (year month : Nat) : Nat :=
  if month = 2 then (if isLeapYear year then 29 else 28)
  else if month ∈ [4, 6, 9, 11] then 30 else 31

/-- A calendar date; `datetime.date` ends with the year 9999. -/
structure Date where
  year : Nat
  month : Nat
  day : Nat
  valid : (1 ≤ year ∧ year ≤ 9999) ∧ (1 ≤ month ∧ month ≤ 12) ∧
    1 ≤ day ∧ day ≤ daysInMonth year month
  deriving DecidableEq, Repr

/-- A timestamp with microseconds, and the offset of its timezone in microseconds. -/
structure DateTime where
  date : Date
  hour : Nat
  minute : Nat
  second : Nat
  microsecond : Nat
  offset : Option Int
  valid : hour < 24 ∧ minute < 60 ∧ second < 60 ∧ microsecond < 1000000
  validOffset : ∀ o, offset = some o → o.natAbs < 86400000000
  deriving DecidableEq, Repr

namespace Date

/-- The date of the sample runs. -/
def sample : Date := ⟨2026, 9, 4, by decide⟩

def isoformatChars (d : Date) : List Char :=
  Text.zeroPadded 4 d.year ++ '-' :: (Text.zeroPadded 2 d.month ++ '-' :: Text.zeroPadded 2 d.day)

def isoformat (d : Date) : String := String.ofList d.isoformatChars

/-- The days before the year, before the month, and in the month. -/
def toOrdinal (d : Date) : Nat :=
  let y := d.year - 1
  y * 365 + y / 4 - y / 100 + y / 400 +
    ((List.range d.month).tail.map (daysInMonth d.year)).sum + d.day

end Date

namespace DateTime

theorem midnight_valid : 0 < 24 ∧ 0 < 60 ∧ 0 < 60 ∧ 0 < 1000000 := by decide

theorem midnight_validOffset (o : Int) (h : none = some o) : o.natAbs < 86400000000 := by
  cases h

/-- The first instant of a date, without an offset. -/
def midnight (d : Date) : DateTime := ⟨d, 0, 0, 0, 0, none, midnight_valid, midnight_validOffset⟩

/-- The fraction of a second, left out when it is zero. -/
def fraction (microseconds : Nat) : List Char :=
  if microseconds = 0 then [] else '.' :: Text.zeroPadded 6 microseconds

/-- `+HH:MM`, with the seconds and their fraction if there are any. -/
def formatOffset (offset : Int) : List Char :=
  let microseconds := offset.natAbs
  (if offset < 0 then '-' else '+') :: (Text.zeroPadded 2 (microseconds / 3600000000) ++
    ':' :: (Text.zeroPadded 2 (microseconds / 60000000 % 60) ++
      if microseconds / 1000000 % 60 = 0 ∧ microseconds % 1000000 = 0 then []
      else ':' :: (Text.zeroPadded 2 (microseconds / 1000000 % 60) ++
        fraction (microseconds % 1000000))))

def isoformatChars (t : DateTime) : List Char :=
  t.date.isoformatChars ++ 'T' :: (Text.zeroPadded 2 t.hour ++
    ':' :: (Text.zeroPadded 2 t.minute ++ ':' :: (Text.zeroPadded 2 t.second ++
      (fraction t.microsecond ++ (t.offset.map formatOffset).getD []))))

def isoformat (t : DateTime) : String := String.ofList t.isoformatChars

/-- Microseconds on the clock of the timestamp, from the start of the calendar. -/
def wallClock (t : DateTime) : Int :=
  ((((t.date.toOrdinal * 24 + t.hour) * 60 + t.minute) * 60 + t.second) * 1000000 +
    t.microsecond : Nat)

/-- The instant; without an offset the timestamp is read as UTC. -/
def instant (t : DateTime) : Int := t.wallClock - t.offset.getD 0

end DateTime

section Text

variable {xs ys : List Char} {c : Char} {t : DateTime}

theorem daysInMonth_le (year month : Nat) : daysInMonth year month ≤ 31 := by
  unfold daysInMonth
  split
  · split <;> decide
  · split <;> decide

theorem Date.append_inj {d d' : Date}
    (h : d.isoformatChars ++ xs = d'.isoformatChars ++ ys) : d = d' ∧ xs = ys := by
  obtain ⟨year, month, day, hyear, hmonth, hday⟩ := d
  obtain ⟨year', month', day', hyear', hmonth', hday'⟩ := d'
  have hmax := Nat.le_trans hday.2 (daysInMonth_le _ _)
  have hmax' := Nat.le_trans hday'.2 (daysInMonth_le _ _)
  simp only [isoformatChars, List.append_assoc, List.cons_append] at h
  obtain ⟨years, h⟩ := Text.zeroPadded_append_inj (by decide) (by omega) (by omega) h
  obtain ⟨months, h⟩ :=
    Text.zeroPadded_append_inj (by decide) (by omega) (by omega) (List.cons.inj h).2
  obtain ⟨days, h⟩ :=
    Text.zeroPadded_append_inj (by decide) (by omega) (by omega) (List.cons.inj h).2
  refine ⟨?_, h⟩
  subst years months days
  rfl

namespace DateTime

private theorem fraction_append_inj {m n : Nat} (hm : m < 1000000) (hn : n < 1000000)
    (hxs : xs.head? ≠ some '.') (hys : ys.head? ≠ some '.')
    (h : fraction m ++ xs = fraction n ++ ys) : m = n ∧ xs = ys := by
  unfold fraction at h
  split at h <;> split at h
  · exact ⟨by omega, h⟩
  · rw [List.nil_append] at h
    exact absurd (congrArg List.head? h) hxs
  · rw [List.nil_append] at h
    exact absurd (congrArg List.head? h).symm hys
  · exact Text.zeroPadded_append_inj (by decide) hm hn (List.cons.inj h).2

private theorem formatOffset_injective {o o' : Int} (ho : o.natAbs < 86400000000)
    (ho' : o'.natAbs < 86400000000) (h : formatOffset o = formatOffset o') : o = o' := by
  simp only [formatOffset] at h
  obtain ⟨hsign, h⟩ := List.cons.inj h
  have sign : o < 0 ↔ o' < 0 := by
    split at hsign <;> split at hsign <;> first | omega | exact absurd hsign (by decide)
  obtain ⟨hours, h⟩ := Text.zeroPadded_append_inj (by decide) (by omega) (by omega) h
  obtain ⟨minutes, h⟩ :=
    Text.zeroPadded_append_inj (by decide) (by omega) (by omega) (List.cons.inj h).2
  have seconds : o.natAbs / 1000000 % 60 = o'.natAbs / 1000000 % 60 ∧
      o.natAbs % 1000000 = o'.natAbs % 1000000 := by
    split at h <;> split at h
    · omega
    · cases h
    · cases h
    · obtain ⟨hseconds, h⟩ :=
        Text.zeroPadded_append_inj (by decide) (by omega) (by omega) (List.cons.inj h).2
      rw [← List.append_nil (fraction (o.natAbs % 1000000)),
        ← List.append_nil (fraction (o'.natAbs % 1000000))] at h
      exact ⟨hseconds,
        (fraction_append_inj (by omega) (by omega) (by simp) (by simp) h).1⟩
  omega

private theorem head?_offset (o : Option Int) :
    ((o.map formatOffset).getD []).head? ≠ some '.' := by
  cases o with
  | none => simp
  | some o =>
      simp only [Option.map_some, Option.getD_some, formatOffset, List.head?_cons]
      split <;> decide

/-- Different timestamps have different texts. -/
theorem isoformat_injective : Function.Injective isoformat := by
  intro t t' h
  have h : t.isoformatChars = t'.isoformatChars := String.ofList_injective h
  obtain ⟨date, hour, minute, second, microsecond, offset, valid, validOffset⟩ := t
  obtain ⟨date', hour', minute', second', microsecond', offset', valid', validOffset'⟩ := t'
  simp only [isoformatChars] at h
  obtain ⟨dates, h⟩ := Date.append_inj h
  obtain ⟨hours, h⟩ :=
    Text.zeroPadded_append_inj (by decide) (by omega) (by omega) (List.cons.inj h).2
  obtain ⟨minutes, h⟩ :=
    Text.zeroPadded_append_inj (by decide) (by omega) (by omega) (List.cons.inj h).2
  obtain ⟨seconds, h⟩ :=
    Text.zeroPadded_append_inj (by decide) (by omega) (by omega) (List.cons.inj h).2
  obtain ⟨fractions, h⟩ :=
    fraction_append_inj (by omega) (by omega) (head?_offset _) (head?_offset _) h
  have same : offset = offset' := by
    cases offset <;> cases offset' <;>
      simp only [Option.map_none, Option.map_some, Option.getD_none, Option.getD_some] at h
    · rfl
    · cases h
    · cases h
    · rw [formatOffset_injective (validOffset _ rfl) (validOffset' _ rfl) h]
  subst dates hours minutes seconds fractions same
  rfl

/-- The text has digits and five separators. -/
theorem not_mem_isoformat (digit : c.isDigit = false) (separator : c ∉ ['-', 'T', ':', '.', '+']) :
    c ∉ t.isoformat.toList := by
  have digits : ∀ width n, c ∉ Text.zeroPadded width n := fun width n h =>
    absurd (Text.isDigit_of_mem_zeroPadded h) (by simp [digit])
  have fractions : ∀ n, c ∉ fraction n := by
    intro n
    unfold fraction
    split <;> simp_all
  have offsets : ∀ o, c ∉ formatOffset o := by
    intro o
    simp only [formatOffset]
    split <;> split <;> simp_all
  have offset : c ∉ (t.offset.map formatOffset).getD [] := by
    cases t.offset <;> simp [offsets]
  simp only [List.mem_cons, List.not_mem_nil, or_false, not_or] at separator
  simp [isoformat, isoformatChars, Date.isoformatChars, digits, fractions, offset, separator]

end DateTime

end Text

end PaymentsPlatform
