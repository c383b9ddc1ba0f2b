import Etoeragcb.Lib.Calendar
import Etoeragcb.Lib.Text
import Mathlib.Tactic.Linarith
import Mathlib.Tactic.Ring

/-!
# Dates with times

Python's `datetime` with fixed offsets from UTC, its arithmetic, and the texts that `isoformat` writes and
`fromisoformat` reads.
-/

namespace Etoeragcb.Lib

/-- A datetime without a time zone. -/
structure Civil where
  date : Date
  hour : Nat
  minute : Nat
  second : Nat
  microsecond : Nat
  hour_lt : hour < 24
  minute_lt : minute < 60
  second_lt : second < 60
  microsecond_lt : microsecond < 1000000
deriving DecidableEq

/-- What `utcoffset` returns, in microseconds. -/
structure Offset where
  micros : Int
  bounds : -86400000000 < micros ∧ micros < 86400000000
deriving DecidableEq

def Offset.utc : Offset := ⟨0, by decide⟩

structure Aware where
  civil : Civil
  offset : Offset
deriving DecidableEq

inductive Datetime
  | naive (civil : Civil)
  | aware (value : Aware)
deriving DecidableEq

/-! ## Instants -/

/-- The microseconds since the midnight before the first day. -/
def Civil.micros (c : Civil) : Nat :=
  c.date.toOrdinal * 86400000000 + (c.hour * 3600000000 + c.minute * 60000000 + c.second * 1000000 + c.microsecond)

/-- The datetime so many microseconds after that midnight, if there is one. -/
def Civil.ofMicros? (n : Int) : Option Civil :=
  (Date.ofOrdinal? (n / 86400000000).toNat).map fun date =>
    let rest := (n % 86400000000).toNat
    { date := date
      hour := rest / 3600000000
      minute := rest / 60000000 % 60
      second := rest / 1000000 % 60
      microsecond := rest % 1000000
      hour_lt := by omega
      minute_lt := by omega
      second_lt := by omega
      microsecond_lt := by omega }

def Aware.instant (a : Aware) : Int := a.civil.micros - a.offset.micros

/-- What `astimezone(UTC)` shows; nothing stands for an `OverflowError`. -/
def Aware.astimezoneUtc (a : Aware) : Option Civil := Civil.ofMicros? a.instant

namespace Civil

variable {c : Civil} {n : Int}

theorem micros_of_ofMicros? (h : ofMicros? n = some c) : (c.micros : Int) = n := by
  obtain ⟨date, hdate, rfl⟩ := Option.map_eq_some_iff.mp h
  have hordinal := Date.toOrdinal_of_ofOrdinal? hdate
  have hpos := date.isDay.bounds.1
  simp only [micros, hordinal]
  omega

theorem ofMicros?_micros (c : Civil) : ofMicros? c.micros = some c := by
  obtain ⟨date, hour, minute, second, microsecond, hhour, hminute, hsecond, hmicrosecond⟩ := c
  have hday : ((⟨date, hour, minute, second, microsecond, hhour, hminute, hsecond, hmicrosecond⟩ : Civil).micros : Int) /
      86400000000 = date.toOrdinal := by
    simp only [micros]
    omega
  have hrest : (((⟨date, hour, minute, second, microsecond, hhour, hminute, hsecond, hmicrosecond⟩ : Civil).micros : Int) %
      86400000000).toNat = hour * 3600000000 + minute * 60000000 + second * 1000000 + microsecond := by
    simp only [micros]
    omega
  rw [ofMicros?, hday, Int.toNat_natCast, Date.ofOrdinal?_toOrdinal, Option.map_some]
  simp only [hrest, Option.some.injEq, mk.injEq, true_and]
  omega

end Civil

namespace Aware

variable {a : Aware} {c : Civil}

theorem micros_astimezoneUtc (h : a.astimezoneUtc = some c) : (c.micros : Int) = a.instant := Civil.micros_of_ofMicros? h

theorem astimezoneUtc_utc (c : Civil) : (⟨c, .utc⟩ : Aware).astimezoneUtc = some c := by
  have hinstant : (⟨c, .utc⟩ : Aware).instant = c.micros := Int.sub_zero _
  rw [astimezoneUtc, hinstant, Civil.ofMicros?_micros]

end Aware

/-! ## Texts -/

def digit (n : Nat) : Char := Char.ofNat (48 + n)

def digits : Nat → Nat → Text
  | 0, _ => []
  | k + 1, n => digit (n / 10 ^ k % 10) :: digits k n

/-- `k` digits behind the digits of `acc`, and what is left. -/
def readDigits : Nat → Nat → Text → Option (Nat × Text)
  | 0, acc, s => some (acc, s)
  | _ + 1, _, [] => none
  | k + 1, acc, c :: s => if isDigit c then readDigits k (10 * acc + (c.toNat - 48)) s else none

/-- `YYYY-MM-DD` -/
def Date.isoformat (d : Date) : Text := digits 4 d.year ++ '-' :: (digits 2 d.month ++ '-' :: digits 2 d.day)

/-- `.ffffff`, unless the microseconds are zero. -/
def Civil.fractionText (c : Civil) : Text := if c.microsecond = 0 then [] else '.' :: digits 6 c.microsecond

def Civil.timeText (c : Civil) : Text :=
  digits 2 c.hour ++ ':' :: (digits 2 c.minute ++ ':' :: (digits 2 c.second ++ c.fractionText))

/-- `isoformat()` of a datetime in UTC. -/
def Civil.isoformatUtc (c : Civil) : Text := c.date.isoformat ++ 'T' :: (c.timeText ++ ['+', '0', '0', ':', '0', '0'])

/-- `_find_isoformat_datetime_separator` -/
def separatorIndex (s : Text) : Option Nat :=
  if s.length = 7 then some 7
  else if s[4]? = some '-' then
    if s[5]? = some 'W' then
      if s[8]? = some '-' then
        if s.length = 9 then none else some (if s[10]?.any isDigit then 8 else 10)
      else some 8
    else some 10
  else if s[4]? = some 'W' then
    let index := 7 + ((s.drop 7).takeWhile isDigit).length
    some (if index < 9 then index else if index % 2 = 0 then 7 else 8)
  else some 8

/-- What follows the mark `c`, which stands there if it does in the first place of the text. -/
def readMark (c : Char) (marked : Bool) (s : Text) : Option Text :=
  if marked then (if s.head? = some c then some s.tail else none) else some s

def isoweek1monday (year : Nat) : Nat :=
  let firstday := ymd2ord year 1 1
  let firstweekday := (firstday + 6) % 7
  if 3 < firstweekday then firstday - firstweekday + 7 else firstday - firstweekday

def isoweekToGregorian (year week day : Nat) : Option Date :=
  let firstWeekday := ymd2ord year 1 1 % 7
  if (1 ≤ year ∧ year ≤ 9999) ∧ (0 < week ∧ week < 53 ∨
      week = 53 ∧ (firstWeekday = 4 ∨ firstWeekday = 3 ∧ isLeap year)) ∧ 0 < day ∧ day < 8 then
    Date.ofOrdinal? (isoweek1monday year + ((week - 1) * 7 + (day - 1)))
  else none

def Date.of? (year month day : Nat) : Option Date :=
  if h : (1 ≤ year ∧ year ≤ 9999) ∧ (1 ≤ month ∧ month ≤ 12) ∧ 1 ≤ day ∧ day ≤ daysInMonth (isLeap year) month then
    some ⟨year, month, day, h.1, h.2.1, h.2.2⟩
  else none

/-- `_parse_isoformat_date` -/
def readDate (s : Text) : Option Date := do
  let (year, s) ← readDigits 4 0 s
  let marked := s.head? = some '-'
  let s ← readMark '-' marked s
  if s.head? = some 'W' then
    let (week, s) ← readDigits 2 0 s.tail
    if s = [] then isoweekToGregorian year week 1
    else do
      let (day, _) ← (readMark '-' marked s).bind (readDigits 1 0)
      isoweekToGregorian year week day
  else do
    let (month, s) ← readDigits 2 0 s
    let (day, _) ← (readMark '-' marked s).bind (readDigits 2 0)
    Date.of? year month day

/-- The fraction of a second in microseconds, cut after six digits. -/
def readFraction : Text → Option Nat
  | [] => some 0
  | c :: s =>
      if (c = '.' ∨ c = ',') ∧ s ≠ [] ∧ s.all isDigit then (readDigits 6 0 (s ++ List.replicate 6 '0')).map Prod.fst else none

/-- `_parse_hh_mm_ss_ff` -/
def readTime (s : Text) : Option (Nat × Nat × Nat × Nat) := do
  let (hour, s) ← readDigits 2 0 s
  if s = [] then return (hour, 0, 0, 0)
  let marked := s.head? = some ':'
  let (minute, s) ← (readMark ':' marked s).bind (readDigits 2 0)
  if s = [] then return (hour, minute, 0, 0)
  let (second, s) ← (readMark ':' marked s).bind (readDigits 2 0)
  let microsecond ← readFraction s
  return (hour, minute, second, microsecond)

def isZoneSign (c : Char) : Bool := c == '+' || c == '-' || c == 'Z'

def Offset.of? (micros : Int) : Option Offset :=
  if h : -86400000000 < micros ∧ micros < 86400000000 then some ⟨micros, h⟩ else none

def readZone : Text → Option (Option Offset)
  | [] => some none
  | sign :: s =>
      if sign = 'Z' then (if s = [] then some (some .utc) else none)
      else do
        let (hours, minutes, seconds, micros) ← readTime s
        let offset : Int := hours * 3600000000 + minutes * 60000000 + seconds * 1000000 + micros
        (Offset.of? (if sign = '-' then -offset else offset)).map some

def Civil.of? (date : Date) (hour minute second microsecond : Nat) : Option Civil :=
  if h : hour < 24 ∧ minute < 60 ∧ second < 60 ∧ microsecond < 1000000 then
    some ⟨date, hour, minute, second, microsecond, h.1, h.2.1, h.2.2.1, h.2.2.2⟩
  else none

/-- `datetime.fromisoformat` -/
def fromisoformat (s : Text) : Option Datetime := do
  if s.length < 7 then none
  let i ← separatorIndex s
  let date ← readDate (s.take i)
  let s := s.drop (i + 1)
  if s = [] then return .naive ⟨date, 0, 0, 0, 0, by decide, by decide, by decide, by decide⟩
  let (hour, minute, second, microsecond) ← readTime (s.takeWhile fun c => !isZoneSign c)
  let tzinfo ← readZone (s.dropWhile fun c => !isZoneSign c)
  let civil ← Civil.of? date hour minute second microsecond
  return tzinfo.elim (.naive civil) fun offset => .aware ⟨civil, offset⟩

/-! ## Reading what is written -/

theorem digit_spec : ∀ n < 10, isDigit (digit n) = true ∧ (digit n).toNat - 48 = n := by decide

theorem digit_ne_week : ∀ n < 10, digit n ≠ 'W' := by decide

theorem length_digits (k n : Nat) : (digits k n).length = k := by
  induction k with
  | zero => rfl
  | succ k ih => rw [digits, List.length_cons, ih]

theorem isDigit_of_mem_digits {k n : Nat} {c : Char} (h : c ∈ digits k n) : isDigit c = true := by
  induction k with
  | zero => cases h
  | succ k ih =>
      rcases List.mem_cons.mp h with rfl | h
      · exact (digit_spec _ (Nat.mod_lt _ (by decide))).1
      · exact ih h

theorem readDigits_digits (k acc n : Nat) (s : Text) :
    readDigits k acc (digits k n ++ s) = some (10 ^ k * acc + n % 10 ^ k, s) := by
  induction k generalizing acc with
  | zero => simp [readDigits, digits, Nat.mod_one]
  | succ k ih =>
      obtain ⟨hdigit, hvalue⟩ := digit_spec (n / 10 ^ k % 10) (Nat.mod_lt _ (by decide))
      rw [digits, List.cons_append, readDigits, if_pos hdigit, hvalue, ih, Nat.mod_pow_succ]
      congr 2
      ring

theorem readDigits_of_lt {k n : Nat} (h : n < 10 ^ k) (s : Text) : readDigits k 0 (digits k n ++ s) = some (n, s) := by
  rw [readDigits_digits, Nat.mul_zero, Nat.zero_add, Nat.mod_eq_of_lt h]

theorem Date.readDate_isoformat (d : Date) : readDate d.isoformat = some d := by
  have hyear := d.year_bounds
  have hmonth := d.month_bounds
  have hday := d.day_bounds
  have hle : ∀ leap, ∀ month < 13, daysInMonth leap month < 100 := by decide
  have hdays := hle (isLeap d.year) d.month (by omega)
  have hdate : Date.of? d.year d.month d.day = some d := dif_pos ⟨hyear, hmonth, hday⟩
  have hhead : (digits 2 d.month ++ '-' :: digits 2 d.day).head? ≠ some 'W' := fun he =>
    digit_ne_week _ (Nat.mod_lt _ (by decide)) (Option.some.inj he)
  have hlast := readDigits_of_lt (k := 2) (show d.day < 10 ^ 2 by omega) []
  rw [List.append_nil] at hlast
  rw [readDate, isoformat, readDigits_of_lt (by omega)]
  simp only [Option.bind_eq_bind, Option.bind_some, List.head?_cons, readMark, if_true, List.tail_cons, decide_true, if_neg hhead,
    readDigits_of_lt (show d.month < 10 ^ 2 by omega), hlast, hdate]

namespace Civil

theorem readFraction_fractionText (c : Civil) : readFraction c.fractionText = some c.microsecond := by
  rw [fractionText]
  split
  · rename_i h
    rw [h]
    rfl
  · have hne : digits 6 c.microsecond ≠ [] := List.cons_ne_nil _ _
    have hall : (digits 6 c.microsecond).all isDigit = true := List.all_eq_true.mpr fun x hx => isDigit_of_mem_digits hx
    rw [readFraction, if_pos ⟨Or.inl rfl, hne, hall⟩, readDigits_of_lt c.microsecond_lt, Option.map_some]

theorem readTime_timeText (c : Civil) : readTime c.timeText = some (c.hour, c.minute, c.second, c.microsecond) := by
  have hhour := c.hour_lt
  have hminute := c.minute_lt
  have hsecond := c.second_lt
  rw [readTime, timeText, readDigits_of_lt (by omega)]
  simp only [Option.bind_eq_bind, Option.bind_some, List.head?_cons, readMark, List.cons_ne_nil, if_true, if_false,
    List.tail_cons, decide_true, readDigits_of_lt (show c.minute < 10 ^ 2 by omega),
    readDigits_of_lt (show c.second < 10 ^ 2 by omega), readFraction_fractionText]
  rfl

theorem isZoneSign_of_mem_timeText {c : Civil} {x : Char} (h : x ∈ c.timeText) : isZoneSign x = false := by
  have hdigits : ∀ {k n}, x ∈ digits k n → isZoneSign x = false := by
    intro k n hx
    have hd := isDigit_of_mem_digits hx
    by_contra hsign
    rw [Bool.not_eq_false, isZoneSign, Bool.or_eq_true, Bool.or_eq_true, beq_iff_eq, beq_iff_eq, beq_iff_eq] at hsign
    rcases hsign with (rfl | rfl) | rfl <;> cases hd
  simp only [timeText, List.mem_append, List.mem_cons] at h
  rcases h with h | rfl | h | rfl | h | h
  · exact hdigits h
  · rfl
  · exact hdigits h
  · rfl
  · exact hdigits h
  · rw [fractionText] at h
    split at h
    · cases h
    · rcases List.mem_cons.mp h with rfl | h
      · rfl
      · exact hdigits h

theorem separatorIndex_isoformatUtc (c : Civil) : separatorIndex c.isoformatUtc = some 10 := by
  have hlength : c.isoformatUtc.length ≠ 7 := by
    simp only [isoformatUtc, Date.isoformat, List.length_append, List.length_cons, length_digits]
    omega
  have h4 : c.isoformatUtc[4]? = some '-' := rfl
  have h5 : c.isoformatUtc[5]? = some (digit (c.date.month / 10 ^ 1 % 10)) := rfl
  rw [separatorIndex, if_neg hlength, if_pos h4, if_neg]
  rw [h5]
  exact fun he => digit_ne_week _ (Nat.mod_lt _ (by decide)) (Option.some.inj he)

theorem fromisoformat_isoformatUtc (c : Civil) : fromisoformat c.isoformatUtc = some (.aware ⟨c, .utc⟩) := by
  have hdate : c.date.isoformat.length = 10 := by
    simp only [Date.isoformat, List.length_append, List.length_cons, length_digits]
  have hlength : ¬c.isoformatUtc.length < 7 := by
    rw [isoformatUtc, List.length_append, hdate]
    omega
  have htake : c.isoformatUtc.take 10 = c.date.isoformat := by rw [isoformatUtc, ← hdate, List.take_left]
  have hdrop : c.isoformatUtc.drop 11 = c.timeText ++ ['+', '0', '0', ':', '0', '0'] := by
    rw [isoformatUtc, ← List.drop_drop (i := 1) (j := 10), ← hdate, List.drop_left]
    rfl
  have hsign : ∀ x ∈ c.timeText, (!isZoneSign x) = true := fun x hx => by rw [isZoneSign_of_mem_timeText hx]; rfl
  have htime : (c.timeText ++ ['+', '0', '0', ':', '0', '0']).takeWhile (fun x => !isZoneSign x) = c.timeText := by
    rw [List.takeWhile_append_of_pos hsign, List.takeWhile_cons_of_neg (by decide), List.append_nil]
  have hzone : (c.timeText ++ ['+', '0', '0', ':', '0', '0']).dropWhile (fun x => !isZoneSign x) =
      ['+', '0', '0', ':', '0', '0'] := by
    rw [List.dropWhile_append_of_pos hsign, List.dropWhile_cons_of_neg (by decide)]
  have hutc : readZone ['+', '0', '0', ':', '0', '0'] = some (some .utc) := by decide
  have hcivil : Civil.of? c.date c.hour c.minute c.second c.microsecond = some c :=
    dif_pos ⟨c.hour_lt, c.minute_lt, c.second_lt, c.microsecond_lt⟩
  rw [fromisoformat, if_neg hlength]
  simp only [separatorIndex_isoformatUtc, Option.bind_eq_bind, Option.bind_some, htake, hdrop, Date.readDate_isoformat, htime,
    hzone, readTime_timeText, hutc, hcivil]
  exact if_neg (List.append_ne_nil_of_right_ne_nil _ (List.cons_ne_nil _ _))

end Civil

end Etoeragcb.Lib
