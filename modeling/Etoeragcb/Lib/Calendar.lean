import Mathlib.Data.Nat.Init
import Mathlib.Order.Basic
import Mathlib.Tactic.ByContra
import Mathlib.Tactic.Set

/-!
# The calendar

The proleptic Gregorian calendar of Python's dates, whose days are numbered from January 1 of the year 1.
-/

namespace Etoeragcb.Lib

def isLeap (year : Nat) : Bool := year % 4 == 0 && (year % 100 != 0 || year % 400 == 0)

def daysBeforeYear (year : Nat) : Nat := (year - 1) * 365 + (year - 1) / 4 - (year - 1) / 100 + (year - 1) / 400

def daysInMonth (leap : Bool) (month : Nat) : Nat :=
  if month = 2 then (if leap then 29 else 28) else if month ∈ [4, 6, 9, 11] then 30 else 31

def daysBeforeMonth (leap : Bool) (month : Nat) : Nat :=
  [0, 0, 31, 59, 90, 120, 151, 181, 212, 243, 273, 304, 334].getD month 0 + if 2 < month ∧ leap then 1 else 0

structure Date where
  year : Nat
  month : Nat
  day : Nat
  year_bounds : 1 ≤ year ∧ year ≤ 9999
  month_bounds : 1 ≤ month ∧ month ≤ 12
  day_bounds : 1 ≤ day ∧ day ≤ daysInMonth (isLeap year) month
deriving DecidableEq

def ymd2ord (year month day : Nat) : Nat := daysBeforeYear year + daysBeforeMonth (isLeap year) month + day

def Date.toOrdinal (d : Date) : Nat := ymd2ord d.year d.month d.day

/-- The month and the day of the day `n` of a year, of which the first is 0. -/
def monthDay (leap : Bool) (n : Nat) : Nat × Nat :=
  let month := (n + 50) / 32
  let preceding := daysBeforeMonth leap month
  if n < preceding then (month - 1, n - (preceding - daysInMonth leap (month - 1)) + 1) else (month, n - preceding + 1)

def ord2ymd (ordinal : Nat) : Nat × Nat × Nat :=
  let n400 := (ordinal - 1) / 146097
  let n := (ordinal - 1) % 146097
  let n100 := n / 36524
  let n := n % 36524
  let n4 := n / 1461
  let n := n % 1461
  let n1 := n / 365
  let year := n400 * 400 + 1 + (n100 * 100 + n4 * 4 + n1)
  if n1 = 4 ∨ n100 = 4 then (year - 1, 12, 31) else (year, monthDay (n1 == 3 && (n4 != 24 || n100 == 3)) (n % 365))

/-! ## Years -/

variable {a b c d year year' month month' day day' : Nat}

theorem daysBeforeYear_cycle (hb : b < 4) (hc : c < 25) (hd : d < 4) :
    daysBeforeYear (400 * a + 100 * b + 4 * c + d + 1) = 146097 * a + 36524 * b + 1461 * c + 365 * d := by
  unfold daysBeforeYear
  omega

theorem isLeap_cycle (hb : b < 4) (hc : c < 25) (hd : d < 4) :
    isLeap (400 * a + 100 * b + 4 * c + d + 1) = (d == 3 && (c != 24 || b == 3)) := by
  rw [Bool.eq_iff_iff]
  simp only [isLeap, Bool.and_eq_true, Bool.or_eq_true, beq_iff_eq, bne_iff_ne]
  omega

theorem daysBeforeYear_succ (h : 1 ≤ year) :
    daysBeforeYear (year + 1) = daysBeforeYear year + 365 + (isLeap year).toNat := by
  obtain ⟨p, rfl⟩ := Nat.exists_eq_add_of_le' h
  have hle : p / 100 ≤ p / 4 := Nat.div_le_div_left (by decide) (by decide)
  have h100 : 100 ∣ p + 1 → 4 ∣ p + 1 := fun h => Nat.dvd_trans (by decide) h
  have h400 : 400 ∣ p + 1 → 100 ∣ p + 1 := fun h => Nat.dvd_trans (by decide) h
  have hleap : isLeap (p + 1) = decide (4 ∣ p + 1 ∧ (¬100 ∣ p + 1 ∨ 400 ∣ p + 1)) := by
    rw [Bool.eq_iff_iff]
    simp [isLeap, Nat.dvd_iff_mod_eq_zero]
  rw [daysBeforeYear, daysBeforeYear, hleap, Nat.add_sub_cancel, Nat.add_sub_cancel, Nat.succ_div, Nat.succ_div, Nat.succ_div]
  by_cases h₁ : 4 ∣ p + 1
  · by_cases h₂ : 100 ∣ p + 1
    · by_cases h₃ : 400 ∣ p + 1
      · simp only [h₁, h₂, h₃, if_true, or_true, and_self, decide_true, Bool.toNat_true]
        omega
      · simp only [h₁, h₂, h₃, if_true, if_false, not_true_eq_false, or_self, and_false, decide_false, Bool.toNat_false]
        omega
    · have h₃ : ¬400 ∣ p + 1 := fun h => h₂ (h400 h)
      simp only [h₁, h₂, h₃, if_true, if_false, not_false_eq_true, true_or, and_self, decide_true, Bool.toNat_true]
      omega
  · have h₂ : ¬100 ∣ p + 1 := fun h => h₁ (h100 h)
    have h₃ : ¬400 ∣ p + 1 := fun h => h₂ (h400 h)
    simp only [h₁, h₂, h₃, if_false, false_and, decide_false, Bool.toNat_false]
    omega

theorem daysBeforeYear_mono (h : 1 ≤ year) (hle : year ≤ year') : daysBeforeYear year ≤ daysBeforeYear year' := by
  induction year', hle using Nat.le_induction with
  | base => exact Nat.le_refl _
  | succ n hn ih =>
      rw [daysBeforeYear_succ (Nat.le_trans h hn)]
      omega

/-! ## Days of a year -/

theorem dayOfYear_bounds : ∀ leap : Bool, ∀ month < 13, 1 ≤ month →
    daysBeforeMonth leap month + daysInMonth leap month ≤ 365 + leap.toNat := by decide

theorem daysBeforeMonth_lt : ∀ leap : Bool, ∀ month' < 13, ∀ month < month', 1 ≤ month →
    daysBeforeMonth leap month + daysInMonth leap month ≤ daysBeforeMonth leap month' := by decide

theorem monthDay_spec : ∀ leap : Bool, ∀ n < 365 + leap.toNat,
    (1 ≤ (monthDay leap n).1 ∧ (monthDay leap n).1 ≤ 12) ∧
      (1 ≤ (monthDay leap n).2 ∧ (monthDay leap n).2 ≤ daysInMonth leap (monthDay leap n).1) ∧
      daysBeforeMonth leap (monthDay leap n).1 + (monthDay leap n).2 = n + 1 := by decide +kernel

/-! ## Ordinals -/

/-- The day of an ordinal is a day of the calendar. -/
structure IsDay (ordinal year month day : Nat) : Prop where
  year_pos : 1 ≤ year
  month_bounds : 1 ≤ month ∧ month ≤ 12
  day_bounds : 1 ≤ day ∧ day ≤ daysInMonth (isLeap year) month
  ordinal_eq : ymd2ord year month day = ordinal

theorem ord2ymd_isDay {ordinal : Nat} (h : 1 ≤ ordinal) :
    IsDay ordinal (ord2ymd ordinal).1 (ord2ymd ordinal).2.1 (ord2ymd ordinal).2.2 := by
  rw [ord2ymd]
  set a := (ordinal - 1) / 146097 with ha
  set r := (ordinal - 1) % 146097 with hr
  set b := r / 36524 with hb
  set c := r % 36524 / 1461 with hc
  set d := r % 36524 % 1461 / 365 with hd
  set n := r % 36524 % 1461 % 365 with hn
  have hordinal : ordinal = 146097 * a + 36524 * b + 1461 * c + 365 * d + n + 1 := by omega
  split
  · -- the last day of four years or of all of them
    rename_i hlast
    obtain ⟨b', c', hb', hc', hyear, hleap, heq⟩ : ∃ b' c', b' < 4 ∧ c' < 25 ∧
        a * 400 + 1 + (b * 100 + c * 4 + d) - 1 = 400 * a + 100 * b' + 4 * c' + 3 + 1 ∧ (c' ≠ 24 ∨ b' = 3) ∧
          ordinal = 146097 * a + 36524 * b' + 1461 * c' + 365 * 3 + 366 := by
      rcases hlast with hlast | hlast
      · exact ⟨b, c, by omega, by omega, by omega, by omega, by omega⟩
      · exact ⟨3, 24, by omega, by omega, by omega, by omega, by omega⟩
    have hleap' : isLeap (400 * a + 100 * b' + 4 * c' + 3 + 1) = true := by
      rw [isLeap_cycle hb' hc' (by decide)]
      simpa using hleap
    rw [hyear]
    refine ⟨Nat.le_add_left 1 _, ⟨Nat.le_add_left 1 11, Nat.le_refl 12⟩, ?_, ?_⟩
    · dsimp only
      rw [hleap']
      decide
    · dsimp only
      have hdays : daysBeforeMonth true 12 = 335 := by decide
      rw [ymd2ord, hleap', daysBeforeYear_cycle hb' hc' (by decide), hdays, heq]
  · rename_i hlast
    rw [not_or] at hlast
    have hyear : a * 400 + 1 + (b * 100 + c * 4 + d) = 400 * a + 100 * b + 4 * c + d + 1 := by omega
    have hb' : b < 4 := by omega
    have hc' : c < 25 := by omega
    have hd' : d < 4 := by omega
    obtain ⟨hmonth, hday, hsum⟩ := monthDay_spec (d == 3 && (c != 24 || b == 3)) n (by omega)
    rw [hyear, ← isLeap_cycle hb' hc' hd'] at *
    refine ⟨by omega, hmonth, hday, ?_⟩
    rw [ymd2ord, daysBeforeYear_cycle hb' hc' hd', Nat.add_assoc, hsum, hordinal]
    omega

namespace IsDay

variable {ordinal ordinal' : Nat}

theorem bounds (h : IsDay ordinal year month day) :
    daysBeforeYear year < ordinal ∧ ordinal ≤ daysBeforeYear (year + 1) := by
  obtain ⟨hyear, hmonth, hday, rfl⟩ := h
  have hle := dayOfYear_bounds (isLeap year) month (Nat.lt_succ_of_le hmonth.2) hmonth.1
  rw [daysBeforeYear_succ hyear, ymd2ord]
  omega

theorem year_le (h : IsDay ordinal year month day) (h' : IsDay ordinal' year' month' day') (hle : ordinal ≤ ordinal') :
    year ≤ year' := by
  by_contra hlt
  have hmono := daysBeforeYear_mono (Nat.le_add_left 1 year') (show year' + 1 ≤ year by omega)
  have hx := h.bounds
  have hy := h'.bounds
  omega

theorem unique (h : IsDay ordinal year month day) (h' : IsDay ordinal year' month' day') :
    year = year' ∧ month = month' ∧ day = day' := by
  obtain rfl : year = year' := Nat.le_antisymm (h.year_le h' (Nat.le_refl _)) (h'.year_le h (Nat.le_refl _))
  have hdays : daysBeforeMonth (isLeap year) month + day = daysBeforeMonth (isLeap year) month' + day' := by
    have heq := h.ordinal_eq.trans h'.ordinal_eq.symm
    rw [ymd2ord, ymd2ord] at heq
    omega
  obtain ⟨-, hmonth, hday, -⟩ := h
  obtain ⟨-, hmonth', hday', -⟩ := h'
  obtain rfl : month = month' := by
    rcases Nat.lt_trichotomy month month' with hlt | heq | hlt
    · have hbefore := daysBeforeMonth_lt (isLeap year) month' (by omega) month hlt hmonth.1
      omega
    · exact heq
    · have hbefore := daysBeforeMonth_lt (isLeap year) month (by omega) month' hlt hmonth'.1
      omega
  exact ⟨rfl, rfl, by omega⟩

end IsDay

/-- `date.fromordinal` -/
def Date.ofOrdinal? (ordinal : Nat) : Option Date :=
  if h : 1 ≤ ordinal ∧ (ord2ymd ordinal).1 ≤ 9999 then
    some ⟨(ord2ymd ordinal).1, (ord2ymd ordinal).2.1, (ord2ymd ordinal).2.2, ⟨(ord2ymd_isDay h.1).year_pos, h.2⟩,
      (ord2ymd_isDay h.1).month_bounds, (ord2ymd_isDay h.1).day_bounds⟩
  else none

namespace Date

variable {ordinal : Nat} {x : Date}

theorem isDay (x : Date) : IsDay x.toOrdinal x.year x.month x.day := ⟨x.year_bounds.1, x.month_bounds, x.day_bounds, rfl⟩

theorem toOrdinal_of_ofOrdinal? (h : ofOrdinal? ordinal = some x) : x.toOrdinal = ordinal := by
  rw [ofOrdinal?] at h
  split at h
  · rename_i hpos
    cases h
    exact (ord2ymd_isDay hpos.1).ordinal_eq
  · cases h

theorem ofOrdinal?_toOrdinal (x : Date) : ofOrdinal? x.toOrdinal = some x := by
  have hpos : 1 ≤ x.toOrdinal := Nat.one_le_of_lt x.isDay.bounds.1
  obtain ⟨hyear, hmonth, hday⟩ := (ord2ymd_isDay hpos).unique x.isDay
  rw [ofOrdinal?, dif_pos ⟨hpos, hyear ▸ x.year_bounds.2⟩]
  simp only [hyear, hmonth, hday]

end Date

end Etoeragcb.Lib
