import PaymentsPlatform.Time.Calendar

/-!
# Reading timestamps

Python's `datetime.fromisoformat`: calendar and week dates, with and without separators,
any one character in front of the time, a fraction of any length of which six digits
count, an offset down to microseconds or `Z`, and midnight as 24:00 of the day before. It
reads what `isoformat` writes (`fromIsoformat_isoformat`).
-/

namespace PaymentsPlatform

/-- A number of so many digits at the start of a text. -/
def takeNumber (width : Nat) (s : List Char) : Option (Nat × List Char) :=
  let digits := s.take width
  if digits.length = width ∧ digits.all Char.isDigit then
    some (Nat.ofDigitChars 10 digits 0, s.drop width)
  else none

/-- A separator, where there must be one. -/
def skip (separator : Char) (required : Bool) (s : List Char) : Option (List Char) :=
  if required then (if s.head? = some separator then some s.tail else none) else some s

namespace Date

/-- The date of three numbers, if they are one. -/
def ofFields (year month day : Nat) : Option Date :=
  if valid : (1 ≤ year ∧ year ≤ 9999) ∧ (1 ≤ month ∧ month ≤ 12) ∧
      1 ≤ day ∧ day ≤ daysInMonth year month then
    some ⟨year, month, day, valid⟩
  else none

/-- The month and the day of the `n`th day behind the start of a month. -/
def inYear (year : Nat) : Nat → Nat → Nat → Option Date
  | 0, _, _ => none
  | months + 1, month, n =>
      if n < daysInMonth year month then ofFields year month (n + 1)
      else inYear year months (month + 1) (n - daysInMonth year month)

/-- The `n`th day of the calendar. -/
def fromOrdinal (n : Nat) : Option Date :=
  let n := n - 1
  let n400 := n / 146097
  let n100 := n % 146097 / 36524
  let n4 := n % 146097 % 36524 / 1461
  let n1 := n % 146097 % 36524 % 1461 / 365
  let year := n400 * 400 + 1 + n100 * 100 + n4 * 4 + n1
  if n1 = 4 ∨ n100 = 4 then ofFields (year - 1) 12 31
  else inYear year 12 1 (n % 146097 % 36524 % 1461 % 365)

/-- The ordinal of the first day of a year. -/
def firstDay (year : Nat) : Nat :=
  let y := year - 1
  y * 365 + y / 4 - y / 100 + y / 400 + 1

/-- `_isoweek1monday`: the week with the first Thursday of the year. -/
def firstMonday (year : Nat) : Nat :=
  let first := firstDay year
  let weekday := (first + 6) % 7
  if 3 < weekday then first + 7 - weekday else first - weekday

/-- A day of a week of the year. -/
def fromIsoWeek (year week day : Nat) : Option Date :=
  let weekday := firstDay year % 7
  let long := weekday = 4 ∨ weekday = 3 ∧ isLeapYear year
  if (1 ≤ year ∧ year ≤ 9999) ∧ (0 < week ∧ week < 53 ∨ week = 53 ∧ long) ∧ 0 < day ∧ day < 8 then
    fromOrdinal (firstMonday year + (week - 1) * 7 + (day - 1))
  else none

/-- The day after. -/
def next (d : Date) : Option Date :=
  if d.day < daysInMonth d.year d.month then ofFields d.year d.month (d.day + 1)
  else if d.month < 12 then ofFields d.year (d.month + 1) 1
  else ofFields (d.year + 1) 1 1

/-- A date with or without dashes, or a week. -/
def parse (s : List Char) : Option Date := do
  let (year, rest) ← takeNumber 4 s
  let dashed := rest.head? = some '-'
  let rest := if dashed then rest.tail else rest
  if rest.head? = some 'W' then
    let (week, rest) ← takeNumber 2 rest.tail
    if rest = [] then fromIsoWeek year week 1
    else
      let rest ← skip '-' dashed rest
      let (day, rest) ← takeNumber 1 rest
      if rest = [] then fromIsoWeek year week day else none
  else
    let (month, rest) ← takeNumber 2 rest
    let rest ← skip '-' dashed rest
    let (day, rest) ← takeNumber 2 rest
    if rest = [] then ofFields year month day else none

end Date

/-- The fields of a time, or of an offset. -/
structure Clock where
  hour : Nat
  minute : Nat
  second : Nat
  microsecond : Nat
  deriving DecidableEq, Repr

namespace Clock

/-- The digits behind the point of the seconds. -/
def parseFraction (s : List Char) : Option Nat :=
  if s ≠ [] ∧ s.all Char.isDigit then
    let digits := s.take 6
    some (Nat.ofDigitChars 10 digits 0 * 10 ^ (6 - digits.length))
  else none

/-- A time of day, from the hour to the microsecond. -/
def parse (s : List Char) : Option Clock := do
  let (hour, rest) ← takeNumber 2 s
  let separated := rest.head? = some ':'
  if rest = [] then return ⟨hour, 0, 0, 0⟩
  let rest ← skip ':' separated rest
  let (minute, rest) ← takeNumber 2 rest
  if rest = [] then return ⟨hour, minute, 0, 0⟩
  let rest ← skip ':' separated rest
  let (second, rest) ← takeNumber 2 rest
  match rest with
  | [] => return ⟨hour, minute, second, 0⟩
  | point :: rest =>
      if point ∈ ['.', ','] then
        let microsecond ← parseFraction rest
        return ⟨hour, minute, second, microsecond⟩
      else none

def microseconds (c : Clock) : Nat :=
  ((c.hour * 60 + c.minute) * 60 + c.second) * 1000000 + c.microsecond

end Clock

/-- An offset behind its sign; `Z` stands alone. -/
def parseOffset (sign : Char) (s : List Char) : Option Int :=
  if sign = 'Z' then (if s = [] then some 0 else none)
  else do
    let c ← Clock.parse s
    if c.hour < 24 ∧ c.minute < 60 ∧ c.second < 60 then
      return if sign = '-' then -c.microseconds else c.microseconds
    else none

/-- A time of day and its offset. -/
def parseTime (s : List Char) : Option (Clock × Option Int) := do
  let (clock, zone) := s.span fun c => c ∉ ['+', '-', 'Z']
  let c ← Clock.parse clock
  match zone with
  | [] => return (c, none)
  | sign :: rest =>
      let offset ← parseOffset sign rest
      return (c, some offset)

/-- Where the date ends. -/
def findSeparator (s : List Char) : Option Nat :=
  if s.length = 7 then some 7
  else if s[4]? = some '-' then
    if s[5]? = some 'W' then
      if s[8]? = some '-' then
        if s.length = 9 then none
        else if (s[10]?.map Char.isDigit).getD false then some 8 else some 10
      else some 8
    else some 10
  else if s[4]? = some 'W' then
    let last := 7 + ((s.drop 7).takeWhile Char.isDigit).length
    if last < 9 then some last else if last % 2 = 0 then some 7 else some 8
  else some 8

namespace DateTime

/-- The timestamp of its parts, if they are in range. -/
def ofFields (date : Date) (c : Clock) (offset : Option Int) : Option DateTime :=
  if valid : (c.hour < 24 ∧ c.minute < 60 ∧ c.second < 60 ∧ c.microsecond < 1000000) ∧
      ∀ o ∈ offset, o.natAbs < 86400000000 then
    some ⟨date, c.hour, c.minute, c.second, c.microsecond, offset, valid.1, valid.2⟩
  else none

/-- The timestamp that a text is read as. -/
def fromIsoformat (s : List Char) : Option DateTime := do
  if s.length < 7 then none
  let separator ← findSeparator s
  let date ← Date.parse (s.take separator)
  if s.length = separator then ofFields date ⟨0, 0, 0, 0⟩ none
  else
    let (c, offset) ← parseTime (s.drop (separator + 1))
    if c.hour = 24 then
      if c.minute = 0 ∧ c.second = 0 ∧ c.microsecond = 0 then
        let date ← date.next
        ofFields date ⟨0, 0, 0, 0⟩ offset
      else none
    else ofFields date c offset

end DateTime

section RoundTrip

open Text (zeroPadded)

variable {width n : Nat} {rest : List Char}

theorem takeNumber_zeroPadded (hwidth : 0 < width) (fits : n < 10 ^ width) (rest : List Char) :
    takeNumber width (zeroPadded width n ++ rest) = some (n, rest) := by
  have hlen := Text.length_zeroPadded hwidth fits
  have digits : (zeroPadded width n).all Char.isDigit = true :=
    List.all_eq_true.mpr fun c hc => Text.isDigit_of_mem_zeroPadded hc
  rw [takeNumber, List.take_left' hlen, List.drop_left' hlen, if_pos ⟨hlen, digits⟩,
    Text.ofDigitChars_zeroPadded]

/-- A numeral does not start with a letter. -/
theorem head?_zeroPadded {c : Char} (hwidth : 0 < width) (fits : n < 10 ^ width)
    (rest : List Char) (hc : c.isDigit = false) :
    (zeroPadded width n ++ rest).head? ≠ some c := by
  intro h
  have nonempty : zeroPadded width n ≠ [] := by
    rw [← List.length_pos_iff, Text.length_zeroPadded hwidth fits]
    exact hwidth
  rw [List.head?_append_of_ne_nil _ nonempty] at h
  rw [Text.isDigit_of_mem_zeroPadded (List.mem_of_mem_head? h)] at hc
  cases hc

theorem Date.ofFields_fields (d : Date) : Date.ofFields d.year d.month d.day = some d :=
  dif_pos d.valid

/-- A date is read from its text. -/
theorem Date.parse_isoformatChars (d : Date) : Date.parse d.isoformatChars = some d := by
  have ⟨hyear, hmonth, hday⟩ := d.valid
  have days := Nat.le_trans hday.2 (daysInMonth_le d.year d.month)
  have letter := head?_zeroPadded (c := 'W') (by decide : 0 < 2) (by omega : d.month < 10 ^ 2)
    ('-' :: zeroPadded 2 d.day) (by decide)
  have last := takeNumber_zeroPadded (by decide : 0 < 2) (by omega : d.day < 10 ^ 2) []
  rw [List.append_nil] at last
  simp only [Date.parse, Date.isoformatChars,
    takeNumber_zeroPadded (by decide : 0 < 4) (by omega : d.year < 10 ^ 4),
    takeNumber_zeroPadded (by decide : 0 < 2) (by omega : d.month < 10 ^ 2), last, letter, skip,
    Option.bind_eq_bind, Option.bind_some, List.head?_cons, List.tail_cons, decide_true, if_true,
    if_false, Date.ofFields_fields]

theorem Date.length_isoformatChars (d : Date) : d.isoformatChars.length = 10 := by
  have ⟨hyear, hmonth, hday⟩ := d.valid
  have days := Nat.le_trans hday.2 (daysInMonth_le d.year d.month)
  simp only [Date.isoformatChars, List.length_append, List.length_cons,
    Text.length_zeroPadded (by decide : 0 < 4) (by omega : d.year < 10 ^ 4),
    Text.length_zeroPadded (by decide : 0 < 2) (by omega : d.month < 10 ^ 2),
    Text.length_zeroPadded (by decide : 0 < 2) (by omega : d.day < 10 ^ 2)]

/-- The separator of the text of a timestamp is behind its date. -/
theorem findSeparator_isoformatChars (d : Date) (time : List Char) :
    findSeparator (d.isoformatChars ++ 'T' :: time) = some 10 := by
  have ⟨hyear, hmonth, hday⟩ := d.valid
  have years := Text.length_zeroPadded (by decide : 0 < 4) (by omega : d.year < 10 ^ 4)
  have letter := head?_zeroPadded (c := 'W') (by decide : 0 < 2) (by omega : d.month < 10 ^ 2)
    ('-' :: zeroPadded 2 d.day ++ 'T' :: time) (by decide)
  have long : (d.isoformatChars ++ 'T' :: time).length ≠ 7 := by
    rw [List.length_append, d.length_isoformatChars]
    omega
  have dash : (d.isoformatChars ++ 'T' :: time)[4]? = some '-' := by
    rw [Date.isoformatChars, List.append_assoc, List.getElem?_append_right years.le, years]
    rfl
  have digit : (d.isoformatChars ++ 'T' :: time)[5]? ≠ some 'W' := by
    rw [Date.isoformatChars, List.append_assoc,
      List.getElem?_append_right (by rw [years]; decide), years, List.cons_append,
      List.getElem?_cons_succ, List.append_assoc, ← List.head?_eq_getElem?]
    exact letter
  rw [findSeparator, if_neg long, if_pos dash, if_neg digit]

namespace Clock

/-- The text of the fields. -/
def text (c : Clock) : List Char :=
  zeroPadded 2 c.hour ++ ':' :: (zeroPadded 2 c.minute ++ ':' :: (zeroPadded 2 c.second ++
    DateTime.fraction c.microsecond))

/-- Two digits are enough for the hours, minutes and seconds, and six for the rest. -/
structure Fits (c : Clock) : Prop where
  hour : c.hour < 100
  minute : c.minute < 100
  second : c.second < 100
  microsecond : c.microsecond < 1000000

theorem parseFraction_zeroPadded (fits : n < 1000000) :
    parseFraction (zeroPadded 6 n) = some n := by
  have hlen := Text.length_zeroPadded (by decide : 0 < 6) fits
  have nonempty : zeroPadded 6 n ≠ [] := List.ne_nil_of_length_pos (by rw [hlen]; decide)
  have digits : (zeroPadded 6 n).all Char.isDigit = true :=
    List.all_eq_true.mpr fun c hc => Text.isDigit_of_mem_zeroPadded hc
  simp only [parseFraction, if_pos (And.intro nonempty digits), List.take_of_length_le hlen.le,
    Text.ofDigitChars_zeroPadded, hlen, Nat.sub_self, pow_zero, mul_one]

theorem parse_text {c : Clock} (fits : c.Fits) : parse c.text = some c := by
  have hour := takeNumber_zeroPadded (by decide : 0 < 2) (by exact fits.hour : c.hour < 10 ^ 2)
  have minute := takeNumber_zeroPadded (by decide : 0 < 2)
    (by exact fits.minute : c.minute < 10 ^ 2)
  have second := takeNumber_zeroPadded (by decide : 0 < 2)
    (by exact fits.second : c.second < 10 ^ 2) (DateTime.fraction c.microsecond)
  simp only [parse, text, hour, minute, second, skip, Option.bind_eq_bind, Option.bind_some,
    List.head?_cons, List.tail_cons, decide_true, if_true, if_false, reduceCtorEq]
  by_cases whole : c.microsecond = 0
  · rw [DateTime.fraction, if_pos whole]
    cases c
    simp_all
  · rw [DateTime.fraction, if_neg whole]
    simp [parseFraction_zeroPadded fits.microsecond]

/-- Without seconds they are zero. -/
theorem parse_short {hour minute : Nat} (hhour : hour < 100) (hminute : minute < 100) :
    parse (zeroPadded 2 hour ++ ':' :: zeroPadded 2 minute) = some ⟨hour, minute, 0, 0⟩ := by
  have first := takeNumber_zeroPadded (by decide : 0 < 2) (by exact hhour : hour < 10 ^ 2)
  have last := takeNumber_zeroPadded (by decide : 0 < 2) (by exact hminute : minute < 10 ^ 2) []
  rw [List.append_nil] at last
  simp only [parse, first, last, skip, Option.bind_eq_bind, Option.bind_some,
    List.head?_cons, List.tail_cons, decide_true, if_true, if_false, reduceCtorEq]
  rfl

end Clock

/-- The fields of an offset. -/
def offsetClock (o : Int) : Clock where
  hour := o.natAbs / 3600000000
  minute := o.natAbs / 60000000 % 60
  second := o.natAbs / 1000000 % 60
  microsecond := o.natAbs % 1000000

theorem parse_formatOffset {o : Int} (valid : o.natAbs < 86400000000) :
    Clock.parse (DateTime.formatOffset o).tail = some (offsetClock o) := by
  by_cases short : o.natAbs / 1000000 % 60 = 0 ∧ o.natAbs % 1000000 = 0
  · have parsed := Clock.parse_short (by omega : o.natAbs / 3600000000 < 100)
      (by omega : o.natAbs / 60000000 % 60 < 100)
    simp only [DateTime.formatOffset, if_pos short, List.append_nil, List.tail_cons, parsed]
    rw [offsetClock, short.1, short.2]
  · have fits : (offsetClock o).Fits := by
      constructor <;> simp only [offsetClock] <;> omega
    have parsed := Clock.parse_text fits
    simpa only [DateTime.formatOffset, if_neg short, List.tail_cons, Clock.text, offsetClock]
      using parsed

/-- An offset is read from its text. -/
theorem parseOffset_formatOffset {o : Int} (valid : o.natAbs < 86400000000) :
    ∃ sign, DateTime.formatOffset o = sign :: (DateTime.formatOffset o).tail ∧
      sign ∈ ['+', '-', 'Z'] ∧ parseOffset sign (DateTime.formatOffset o).tail = some o := by
  refine ⟨if o < 0 then '-' else '+', rfl, by split <;> decide, ?_⟩
  have inRange : (offsetClock o).hour < 24 ∧ (offsetClock o).minute < 60 ∧
      (offsetClock o).second < 60 := by
    simp only [offsetClock]
    omega
  have total : (offsetClock o).microseconds = o.natAbs := by
    simp only [offsetClock, Clock.microseconds]
    omega
  have sign : (if o < 0 then '-' else '+') ≠ 'Z' := by split <;> decide
  simp only [parseOffset, if_neg sign, parse_formatOffset valid, Option.bind_eq_bind,
    Option.bind_some, if_pos inRange, total]
  by_cases negative : o < 0
  · rw [if_pos negative, if_pos rfl]
    exact congrArg some (by omega)
  · rw [if_neg negative, if_neg (by decide)]
    exact congrArg some (by omega)

/-- The text of a clock has no sign in it. -/
theorem Clock.not_mem_text {c : Clock} {x : Char} (hx : x ∈ ['+', '-', 'Z']) : x ∉ c.text := by
  have digits : ∀ width n, x ∉ zeroPadded width n := fun width n h => by
    have := Text.isDigit_of_mem_zeroPadded h
    revert this
    simp only [List.mem_cons, List.not_mem_nil, or_false] at hx
    rcases hx with rfl | rfl | rfl <;> decide
  have colon : x ≠ ':' := by rintro rfl; revert hx; decide
  have point : x ≠ '.' := by rintro rfl; revert hx; decide
  have fraction : x ∉ DateTime.fraction c.microsecond := by
    unfold DateTime.fraction
    split <;> simp [digits, point]
  simp [Clock.text, digits, colon, fraction]

/-- A time is read from its text. -/
theorem parseTime_text {c : Clock} (fits : c.Fits) {offset : Option Int}
    (valid : ∀ o ∈ offset, o.natAbs < 86400000000) :
    parseTime (c.text ++ (offset.map DateTime.formatOffset).getD []) = some (c, offset) := by
  have clear : ∀ x ∈ c.text, decide (x ∉ ['+', '-', 'Z']) = true :=
    fun x hx => decide_eq_true fun sign => Clock.not_mem_text sign hx
  have clock := Clock.parse_text fits
  simp only [parseTime, List.span_eq_takeWhile_dropWhile, List.takeWhile_append_of_pos clear,
    List.dropWhile_append_of_pos clear]
  cases offset with
  | none =>
      simp only [Option.map_none, Option.getD_none, List.takeWhile_nil, List.dropWhile_nil,
        List.append_nil, clock, Option.bind_eq_bind, Option.bind_some]
      rfl
  | some o =>
      obtain ⟨sign, htext, hsign, hoffset⟩ := parseOffset_formatOffset (valid o rfl)
      have stop : decide (sign ∉ ['+', '-', 'Z']) = false := decide_eq_false (not_not.mpr hsign)
      rw [Option.map_some, Option.getD_some, htext]
      simp only [List.takeWhile_cons, stop, List.dropWhile_cons, List.append_nil, clock, hoffset,
        Option.bind_eq_bind, Option.bind_some, Bool.false_eq_true, if_false]
      rfl

/-- The fields of the time of day. -/
def DateTime.clock (t : DateTime) : Clock := ⟨t.hour, t.minute, t.second, t.microsecond⟩

/-- A timestamp is read from its text. -/
theorem DateTime.fromIsoformat_isoformat (t : DateTime) :
    fromIsoformat t.isoformatChars = some t := by
  obtain ⟨hour, minute, second, microsecond⟩ := t.valid
  have text : t.isoformatChars = t.date.isoformatChars ++ 'T' ::
      (t.clock.text ++ (t.offset.map formatOffset).getD []) := by
    simp [isoformatChars, Clock.text, DateTime.clock]
  have hlen := t.date.length_isoformatChars
  have fits : t.clock.Fits := by
    constructor <;> simp only [DateTime.clock] <;> omega
  have time := parseTime_text fits t.validOffset
  have long : ¬t.isoformatChars.length < 7 := by
    rw [text, List.length_append, hlen]
    omega
  have behind : t.isoformatChars.length ≠ 10 := by
    rw [text, List.length_append, hlen, List.length_cons]
    omega
  have separator : findSeparator t.isoformatChars = some 10 := by
    rw [text, findSeparator_isoformatChars]
  have day : t.isoformatChars.take 10 = t.date.isoformatChars := by
    rw [text, List.take_left' hlen]
  have clock : t.isoformatChars.drop (10 + 1) =
      t.clock.text ++ (t.offset.map formatOffset).getD [] := by
    rw [text, ← hlen, List.drop_append]
    simp
  have early : t.clock.hour ≠ 24 := by
    simp only [DateTime.clock]
    omega
  simp only [fromIsoformat, if_neg long, separator, day, if_neg behind, clock, time, if_neg early,
    t.date.parse_isoformatChars, Option.bind_eq_bind, Option.bind_some]
  exact dif_pos ⟨t.valid, t.validOffset⟩

end RoundTrip

end PaymentsPlatform
