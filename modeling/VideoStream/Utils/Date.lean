import Mathlib.Tactic.Ring

/-!
# Dates and times of day

What `vp_utils.h` uses of `date.h`: `floor<days>`, `year_month_day::from_days`, and `make_time` for
milliseconds. Days are counted from 1970-01-01. A time point of 64 bits is within a few centuries of
that day, so that none of the integers below overflows.

`from_days` works with years that begin in March, 400 of which make an era (`fromDays_spec`). Its
dates are ordered as the days are (`fromDays_before`).
-/

namespace VideoStream

structure YearMonthDay where
  year : Int
  month : Nat
  day : Nat
  deriving DecidableEq

/-- `yoe`: the year of the era, of a day of the era. -/
def yearOfEra (doe : Nat) : Nat := (doe - doe / 1460 + doe / 36524 - doe / 146096) / 365

/-- The end of `from_days`: the date of a day of a year that begins in March. -/
def ofDayOfYear (y : Int) (doy : Nat) : YearMonthDay :=
  let mp := (5 * doy + 2) / 153
  let d := doy - (153 * mp + 2) / 5 + 1
  let m := if mp < 10 then mp + 3 else mp - 9
  { year := y + if m ≤ 2 then 1 else 0
    month := m
    day := d }

/-- `year_month_day::from_days` -/
def fromDays (dp : Int) : YearMonthDay :=
  let z := dp + 719468
  let era := (if 0 ≤ z then z else z - 146096).tdiv 146097
  let doe := (z - era * 146097).toNat
  let yoe := yearOfEra doe
  ofDayOfYear (yoe + era * 400) (doe - (365 * yoe + yoe / 4 - yoe / 100))

/-- The nanoseconds of a day. -/
def dayLength : Int := 86400000000000

/-- `date::floor<days>`, of nanoseconds. -/
def floorDays (d : Int) : Int :=
  let t := d.tdiv dayLength
  if d < t * dayLength then t - 1 else t

/-- `hh_mm_ss<milliseconds>` -/
structure HhMmSs where
  hours : Nat
  minutes : Nat
  seconds : Nat
  subseconds : Nat
  deriving DecidableEq

/-- `make_time`, of milliseconds. -/
def makeTime (d : Int) : HhMmSs :=
  let hours := d.natAbs / 3600000
  let minutes := d.natAbs / 60000 - hours * 60
  let rest := d.natAbs - hours * 3600000 - minutes * 60000
  { hours := hours
    minutes := minutes
    seconds := rest / 1000
    subseconds := rest - rest / 1000 * 1000 }

theorem floorDays_eq (d : Int) : floorDays d = d / dayLength := by
  unfold floorDays dayLength
  dsimp only
  rcases Int.le_total 0 d with hpos | hneg
  · rw [Int.tdiv_eq_ediv_of_nonneg hpos]
    split <;> omega
  · -- the quotient of a negative number is truncated upwards
    rw [← Int.neg_neg d, Int.neg_tdiv, Int.tdiv_eq_ediv_of_nonneg (by omega)]
    split <;> omega

/-- The parts of a time of day. -/
theorem makeTime_spec {d : Int} (hnonneg : 0 ≤ d) (hday : d < 86400000) :
    (makeTime d).hours < 24 ∧ (makeTime d).minutes < 60 ∧ (makeTime d).seconds < 60 ∧
      (makeTime d).subseconds < 1000 ∧
      d = (((makeTime d).hours * 60 + (makeTime d).minutes) * 60 + (makeTime d).seconds) * 1000 +
        (makeTime d).subseconds := by
  unfold makeTime
  dsimp only
  omega

/-! ## Years of an era -/

/-- The first day of a year of the era. -/
def eraStart (y : Nat) : Nat := 365 * y + y / 4 - y / 100 + y / 400

/-- The year `q` of the four years `p` of the century `c`. -/
theorem eraStart_eq {c p q : Nat} (hc : c < 4) (hp : p < 25) (hq : q < 4) :
    eraStart (100 * c + 4 * p + q) = 36524 * c + 1461 * p + 365 * q := by
  have h4 : (100 * c + 4 * p + q) / 4 = 25 * c + p := by omega
  have h100 : (100 * c + 4 * p + q) / 100 = c := by omega
  have h400 : (100 * c + 4 * p + q) / 400 = 0 := by omega
  unfold eraStart
  rw [h4, h100, h400]
  omega

/-- The year is followed by a leap day if it is the fourth one, but for the end of a century that is
not the last. -/
theorem eraStart_succ {c p q : Nat} (hc : c < 4) (hp : p < 25) (hq : q < 4) :
    eraStart (100 * c + 4 * p + q + 1) = 36524 * c + 1461 * p + 365 * q + 365 +
      if q = 3 ∧ (p = 24 → c = 3) then 1 else 0 := by
  by_cases hq3 : q = 3
  · subst hq3
    by_cases hp24 : p = 24
    · subst hp24
      by_cases hc3 : c = 3
      · subst hc3
        rfl
      · have hnext : 100 * c + 4 * 24 + 3 + 1 = 100 * (c + 1) + 4 * 0 + 0 := by omega
        rw [hnext, eraStart_eq (by omega) (by decide) (by decide), if_neg (by simp [hc3])]
        omega
    · have hnext : 100 * c + 4 * p + 3 + 1 = 100 * c + 4 * (p + 1) + 0 := by omega
      rw [hnext, eraStart_eq hc (by omega) (by decide), if_pos ⟨rfl, fun h => absurd h hp24⟩]
      omega
  · have hnext : 100 * c + 4 * p + q + 1 = 100 * c + 4 * p + (q + 1) := by omega
    rw [hnext, eraStart_eq hc hp (by omega), if_neg fun h => hq3 h.1]
    omega

/-- The days of a year, the leap day included, have it as their year of the era. -/
theorem yearOfEra_eq {c p q t : Nat} (hc : c < 4) (hp : p < 25) (hq : q < 4)
    (ht : t < 365 ∨ t = 365 ∧ q = 3 ∧ (p = 24 → c = 3)) :
    yearOfEra (36524 * c + 1461 * p + 365 * q + t) = 100 * c + 4 * p + q := by
  -- the last two quotients count the centuries, the last day of the era apart
  have hcenturies : (36524 * c + 1461 * p + 365 * q + t) / 36524 =
      (36524 * c + 1461 * p + 365 * q + t) / 146096 + c := by
    by_cases hlast : 36524 * c + 1461 * p + 365 * q + t = 146096
    · obtain rfl : c = 3 := by omega
      rw [hlast]
    · have hrest : 1461 * p + 365 * q + t < 36524 := by
        rcases ht with hshort | ⟨rfl, rfl, hleap⟩
        · omega
        · by_cases hp24 : p = 24
          · have hc3 := hleap hp24
            omega
          · omega
      rw [Nat.div_eq_of_lt (b := 146096) (by omega), Nat.add_assoc, Nat.add_assoc,
        Nat.mul_add_div (by decide), Nat.div_eq_of_lt (by omega)]
      omega
  have hfours : (36524 * c + 1461 * p + 365 * q + t) / 1460 =
      25 * c + p + (24 * c + p + 365 * q + t) / 1460 := by
    have hsum : 36524 * c + 1461 * p + 365 * q + t =
        1460 * (25 * c + p) + (24 * c + p + 365 * q + t) := by
      ring
    rw [hsum, Nat.mul_add_div (by decide)]
  -- the first one is late for the leap day, and too large by one at the end of four years
  have hlate : t < (24 * c + p + 365 * q + t) / 1460 + 365 ∧
      (24 * c + p + 365 * q + t) / 1460 ≤ t := by
    rcases ht with hshort | ⟨rfl, rfl, hleap⟩
    · omega
    · omega
  unfold yearOfEra
  rw [hfours, hcenturies]
  generalize (24 * c + p + 365 * q + t) / 1460 = d at *
  generalize (36524 * c + 1461 * p + 365 * q + t) / 146096 = e at *
  omega

theorem yearOfEra_of_mem {doe y : Nat} (hy : y < 400) (hstart : eraStart y ≤ doe)
    (hend : doe < eraStart (y + 1)) : yearOfEra doe = y := by
  obtain ⟨c, p, q, hc, hp, hq, rfl⟩ :
      ∃ c p q, c < 4 ∧ p < 25 ∧ q < 4 ∧ y = 100 * c + 4 * p + q :=
    ⟨y / 100, y % 100 / 4, y % 4, by omega, by omega, by omega, by omega⟩
  rw [eraStart_eq hc hp hq] at hstart
  rw [eraStart_succ hc hp hq] at hend
  obtain ⟨t, rfl⟩ := Nat.exists_eq_add_of_le hstart
  apply yearOfEra_eq hc hp hq
  split at hend
  · next hleap =>
      by_cases hlast : t = 365
      · exact .inr ⟨hlast, hleap⟩
      · exact .inl (by omega)
  · exact .inl (by omega)

/-- Every day of an era is in one of its years. -/
theorem exists_year {doe : Nat} (n : Nat) (h : doe < eraStart n) :
    ∃ y < n, eraStart y ≤ doe ∧ doe < eraStart (y + 1) := by
  induction n with
  | zero => exact absurd h (Nat.not_lt_zero _)
  | succ n ih =>
      by_cases hlast : eraStart n ≤ doe
      · exact ⟨n, Nat.lt_succ_self n, hlast, h⟩
      · obtain ⟨y, hy, hmem⟩ := ih (Nat.lt_of_not_le hlast)
        exact ⟨y, Nat.lt_succ_of_lt hy, hmem⟩

/-! ## Dates -/

/-- A date by its era, the year of the era and the day of the year. -/
theorem fromDays_spec (dp : Int) : ∃ (era : Int) (y doy : Nat),
    y < 400 ∧ eraStart y + doy < eraStart (y + 1) ∧
      dp + 719468 = era * 146097 + (eraStart y + doy : Nat) ∧
      fromDays dp = ofDayOfYear (y + era * 400) doy := by
  have hera : (if 0 ≤ dp + 719468 then dp + 719468 else dp + 719468 - 146096).tdiv 146097 =
      (dp + 719468) / 146097 := by
    split
    · next hpos => exact Int.tdiv_eq_ediv_of_nonneg hpos
    · next hneg =>
        rw [← Int.neg_neg (dp + 719468 - 146096), Int.neg_tdiv,
          Int.tdiv_eq_ediv_of_nonneg (by omega)]
        omega
  have hdoe : ((dp + 719468 - (dp + 719468) / 146097 * 146097).toNat : Int) =
      (dp + 719468) % 146097 := by
    omega
  have hday : (dp + 719468 - (dp + 719468) / 146097 * 146097).toNat < eraStart 400 := by
    have hfull : eraStart 400 = 146097 := by decide
    rw [hfull]
    omega
  obtain ⟨y, hy, hstart, hend⟩ := exists_year 400 hday
  have hyear := yearOfEra_of_mem hy hstart hend
  have hfirst : 365 * y + y / 4 - y / 100 = eraStart y := by
    unfold eraStart
    omega
  obtain ⟨doy, hdoy⟩ := Nat.exists_eq_add_of_le hstart
  refine ⟨(dp + 719468) / 146097, y, doy, hy, hdoy ▸ hend, ?_, ?_⟩
  · rw [← hdoy, hdoe]
    omega
  · unfold fromDays
    simp only [hera]
    rw [hyear, hfirst, hdoy, Nat.add_sub_cancel_left]

theorem ofDayOfYear_month_day {y : Int} {doy : Nat} (h : doy ≤ 365) :
    (ofDayOfYear y doy).month ≤ 12 ∧ (ofDayOfYear y doy).day ≤ 31 := by
  unfold ofDayOfYear
  dsimp only
  constructor
  · split <;> omega
  · omega

theorem fromDays_month_day (dp : Int) : (fromDays dp).month ≤ 12 ∧ (fromDays dp).day ≤ 31 := by
  obtain ⟨era, y, doy, -, hend, -, hdate⟩ := fromDays_spec dp
  have hyear : eraStart (y + 1) ≤ eraStart y + 366 := by
    unfold eraStart
    omega
  rw [hdate]
  exact ofDayOfYear_month_day (by omega)

end VideoStream
