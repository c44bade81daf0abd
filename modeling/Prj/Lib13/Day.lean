import Prj.Base.Widths

/-! Gregorian and Jalali dates (`lib13/day13.c`). C `int` is modelled by `ℤ`, so every result holds
as long as the C computation stays inside `int`. Division and remainder truncate as in C. Each conversion is a day count
followed by a division chain and a month walk, which invert the count of the other calendar's half. -/
namespace Prj.Lib13
open Prj.Base

def gDaysInMonth : List ℤ := [31, 28, 31, 30, 31, 30, 31, 31, 30, 31, 30, 31]

def jDaysInMonth : List ℤ := [31, 31, 31, 31, 31, 31, 30, 30, 30, 30, 30, 29]

def gLeap (gy : ℤ) : Bool := (gy.tmod 4 == 0 && gy.tmod 100 != 0) || gy.tmod 400 == 0

/-- Days from 1600-01-01 to the first day of year `1600 + gy`. -/
def gYearStart (gy : ℤ) : ℤ :=
  365 * gy + (gy + 3).tdiv 4 - (gy + 99).tdiv 100 + (gy + 399).tdiv 400

/-- First half of `d13_g2j`: the number of a Gregorian day, counted from 1600-01-01. -/
def gDayNo (g_y g_m g_d : ℤ) : ℤ :=
  let gy := g_y - 1600
  let gm := g_m - 1
  let gd := g_d - 1
  let g_day_no := gYearStart gy + offset gDaysInMonth gm.toNat
  -- leap and after Feb
  let g_day_no := if gm > 1 && gLeap gy then g_day_no + 1 else g_day_no
  g_day_no + gd

/-- The 33, 4 and 1 year cycles of `d13_g2j`: Jalali year and day of the year. -/
def jYearOf (j_day_no : ℤ) : ℤ × ℤ :=
  let j_np := j_day_no.tdiv 12053
  let j_day_no := j_day_no.tmod 12053
  let jy := 979 + 33 * j_np + 4 * j_day_no.tdiv 1461
  let j_day_no := j_day_no.tmod 1461
  if j_day_no ≥ 366 then (jy + (j_day_no - 1).tdiv 365, (j_day_no - 1).tmod 365)
  else (jy, j_day_no)

/-- Second half of `d13_g2j`: the Jalali date of a Gregorian day number. -/
def jDateOf (g_day_no : ℤ) : ℤ × ℤ × ℤ :=
  let (jy, j_day_no) := jYearOf (g_day_no - 79)
  -- the loop stops at `i < 11`: the last month takes what is left
  let (i, j_day_no) := locate (jDaysInMonth.take 11) j_day_no
  (jy, i + 1, j_day_no + 1)

def d13G2j (g_y g_m g_d : ℤ) : ℤ × ℤ × ℤ := jDateOf (gDayNo g_y g_m g_d)

/-- Days from 979-01-01 to the first day of Jalali year `979 + jy`. -/
def jYearStart (jy : ℤ) : ℤ := 365 * jy + jy.tdiv 33 * 8 + (jy.tmod 33 + 3).tdiv 4

/-- First half of `d13_j2g`: the number of a Jalali day, counted from 979-01-01. -/
def jDayNo (j_y j_m j_d : ℤ) : ℤ :=
  let jy := j_y - 979
  let jm := j_m - 1
  let jd := j_d - 1
  jYearStart jy + offset jDaysInMonth jm.toNat + jd

/-- The 400 and 100 year cycles of `d13_j2g`: first year of the century, leap flag, days left. -/
def gCenturyOf (g_day_no : ℤ) : ℤ × Bool × ℤ :=
  let gy := 1600 + 400 * g_day_no.tdiv 146097
  let g_day_no := g_day_no.tmod 146097
  if g_day_no ≥ 36525 then
    let g_day_no := g_day_no - 1
    let gy := gy + 100 * g_day_no.tdiv 36524
    let g_day_no := g_day_no.tmod 36524
    if g_day_no ≥ 365 then (gy, true, g_day_no + 1) else (gy, false, g_day_no)
  else (gy, true, g_day_no)

/-- The 4 and 1 year cycles that follow: year, leap flag and day of the year. -/
def gYearOf (g_day_no : ℤ) : ℤ × Bool × ℤ :=
  let (gy, leap, g_day_no) := gCenturyOf g_day_no
  let gy := gy + 4 * g_day_no.tdiv 1461
  let g_day_no := g_day_no.tmod 1461
  if g_day_no ≥ 366 then
    let g_day_no := g_day_no - 1
    (gy + g_day_no.tdiv 365, false, g_day_no.tmod 365)
  else (gy, leap, g_day_no)

/-- Month lengths as the last loop of `d13_j2g` reads them, `(i == 1 && leap)` included. -/
def gMonths (leap : Bool) : List ℤ :=
  gDaysInMonth.mapIdx fun i n => n + if i == 1 && leap then 1 else 0

/-- Second half of `d13_j2g`: the Gregorian date of a day number. -/
def gDateOf (g_day_no : ℤ) : ℤ × ℤ × ℤ :=
  let (gy, leap, g_day_no) := gYearOf g_day_no
  let (i, g_day_no) := locate (gMonths leap) g_day_no
  (gy, i + 1, g_day_no + 1)

def d13J2g (j_y j_m j_d : ℤ) : ℤ × ℤ × ℤ := gDateOf (jDayNo j_y j_m j_d + 79)

def GregLeap (y : ℤ) : Prop := y % 4 = 0 ∧ y % 100 ≠ 0 ∨ y % 400 = 0

/-- Jalali leap years, as fixed by the year term of `d13_jdayno`. -/
def JalaliLeap (y : ℤ) : Prop := (y - 979) % 33 % 4 = 0 ∧ (y - 979) % 33 ≤ 28

instance (y : ℤ) : Decidable (GregLeap y) := inferInstanceAs (Decidable (_ ∨ _))

instance (y : ℤ) : Decidable (JalaliLeap y) := inferInstanceAs (Decidable (_ ∧ _))

def gMonthLen (y m : ℤ) : ℤ :=
  gDaysInMonth.getD (m - 1).toNat 0 + if m = 2 ∧ GregLeap y then 1 else 0

def jMonthLen (y m : ℤ) : ℤ :=
  jDaysInMonth.getD (m - 1).toNat 0 + if m = 12 ∧ JalaliLeap y then 1 else 0

def jMonths (leap : Bool) : List ℤ :=
  jDaysInMonth.mapIdx fun i n => n + if i == 11 && leap then 1 else 0

structure GregDate where
  y : ℤ
  m : ℤ
  d : ℤ
  m_pos : 1 ≤ m
  m_le : m ≤ 12
  d_pos : 1 ≤ d
  d_le : d ≤ gMonthLen y m

structure JalaliDate where
  y : ℤ
  m : ℤ
  d : ℤ
  m_pos : 1 ≤ m
  m_le : m ≤ 12
  d_pos : 1 ≤ d
  d_le : d ≤ jMonthLen y m

def GregDate.NotBefore (g : GregDate) (y m d : ℤ) : Prop :=
  y < g.y ∨ y = g.y ∧ (m < g.m ∨ m = g.m ∧ d ≤ g.d)

def JalaliDate.NotBefore (j : JalaliDate) (y m d : ℤ) : Prop :=
  y < j.y ∨ y = j.y ∧ (m < j.m ∨ m = j.m ∧ d ≤ j.d)

theorem gLeap_eq_true (gy : ℤ) : gLeap gy = true ↔ gy % 4 = 0 ∧ gy % 100 ≠ 0 ∨ gy % 400 = 0 := by
  have h (k : ℤ) : gy.tmod k = 0 ↔ gy % k = 0 := by
    rw [← Int.dvd_iff_tmod_eq_zero, Int.dvd_iff_emod_eq_zero]
  simp [gLeap, h]

theorem gLeap_iff (y : ℤ) : gLeap (y - 1600) = true ↔ GregLeap y := by
  rw [gLeap_eq_true, GregLeap]
  omega

theorem gYearStart_of_nonneg {gy : ℤ} (h : 0 ≤ gy) :
    gYearStart gy = 365 * gy + (gy + 3) / 4 - (gy + 99) / 100 + (gy + 399) / 400 := by
  unfold gYearStart
  rw [Int.tdiv_eq_ediv_of_nonneg (by omega), Int.tdiv_eq_ediv_of_nonneg (by omega),
    Int.tdiv_eq_ediv_of_nonneg (by omega)]

theorem gYearStart_century {c k : ℤ} (hc : 0 ≤ c) (hk : 0 ≤ k) (hk' : k < 100) :
    gYearStart (100 * c + k) = 36524 * c + (c + 3) / 4 + 365 * k + (k + 3) / 4 -
      (if c % 4 = 0 ∨ k = 0 then 0 else 1) := by
  rw [gYearStart_of_nonneg (by omega)]
  split_ifs with h
  · rcases h with h | h <;> omega
  · omega

/-- Where a day number falls in the 400 and 100 year cycles: in a leap century, in the short first
year of a common one, or after it (then counted as if that year had been a leap year). -/
theorem gCenturyOf_spec {n : ℤ} (hn : 0 ≤ n) : ∃ c leap m,
    gCenturyOf n = (1600 + 100 * c, leap, m) ∧ 0 ≤ c ∧ 0 ≤ m ∧ m < 36525 ∧
      ((c % 4 = 0 ∧ leap = true ∧ 36524 * c + (c + 3) / 4 + m = n) ∨
        (c % 4 ≠ 0 ∧ leap = false ∧ m < 365 ∧ 36524 * c + (c + 3) / 4 + m = n) ∨
        (c % 4 ≠ 0 ∧ leap = true ∧ 366 ≤ m ∧ 36524 * c + (c + 3) / 4 + m - 1 = n)) := by
  simp only [gCenturyOf, Int.tdiv_eq_ediv_of_nonneg hn, Int.tmod_eq_emod_of_nonneg hn]
  by_cases h1 : n % 146097 ≥ 36525
  · have hr' : 0 ≤ n % 146097 - 1 := by omega
    simp only [if_pos h1, Int.tdiv_eq_ediv_of_nonneg hr', Int.tmod_eq_emod_of_nonneg hr']
    refine ⟨4 * (n / 146097) + (n % 146097 - 1) / 36524, ?_⟩
    by_cases h2 : (n % 146097 - 1) % 36524 ≥ 365
    · refine ⟨true, (n % 146097 - 1) % 36524 + 1, ?_, by simp; omega⟩
      rw [if_pos h2, Prod.mk.injEq]
      exact ⟨by omega, rfl⟩
    · refine ⟨false, (n % 146097 - 1) % 36524, ?_, by simp; omega⟩
      rw [if_neg h2, Prod.mk.injEq]
      exact ⟨by omega, rfl⟩
  · refine ⟨4 * (n / 146097), true, n % 146097, ?_, by simp; omega⟩
    rw [if_neg h1, Prod.mk.injEq]
    exact ⟨by omega, rfl⟩

theorem gYearOf_spec {n : ℤ} (hn : 0 ≤ n) : ∃ gy doy, gYearOf n = (1600 + gy, gLeap gy, doy) ∧ 0 ≤ gy ∧ 0 ≤ doy ∧
      doy < 365 + (if gLeap gy then 1 else 0) ∧ gYearStart gy + doy = n := by
  obtain ⟨c, leap, m, h, hc, hm, hm', hcase⟩ := gCenturyOf_spec hn
  simp only [gYearOf, h, Int.tdiv_eq_ediv_of_nonneg hm, Int.tmod_eq_emod_of_nonneg hm]
  by_cases h1 : m % 1461 ≥ 366
  · have hr' : 0 ≤ m % 1461 - 1 := by omega
    simp only [if_pos h1, Int.tdiv_eq_ediv_of_nonneg hr', Int.tmod_eq_emod_of_nonneg hr']
    refine ⟨100 * c + (4 * (m / 1461) + (m % 1461 - 1) / 365), (m % 1461 - 1) % 365, ?_⟩
    have hl : gLeap (100 * c + (4 * (m / 1461) + (m % 1461 - 1) / 365)) = false := by
      rw [Bool.eq_false_iff, ne_eq, gLeap_eq_true]
      omega
    rw [hl, gYearStart_century hc (by omega) (by omega), Prod.mk.injEq]
    refine ⟨⟨by omega, rfl⟩, by omega, by omega, by omega, ?_⟩
    split_ifs with h2 <;> omega
  · refine ⟨100 * c + 4 * (m / 1461), m % 1461, ?_⟩
    have hl : gLeap (100 * c + 4 * (m / 1461)) = leap := by
      rw [Bool.eq_iff_iff, gLeap_eq_true]
      rcases hcase with ⟨h4, rfl, _⟩ | ⟨h4, rfl, _, _⟩ | ⟨h4, rfl, _, _⟩ <;> simp <;> omega
    rw [if_neg h1, hl, gYearStart_century hc (by omega) (by omega), Prod.mk.injEq]
    refine ⟨⟨by omega, rfl⟩, by omega, by omega, ?_, ?_⟩
    · rcases hcase with ⟨h4, rfl, _⟩ | ⟨h4, rfl, _, _⟩ | ⟨h4, rfl, _, _⟩ <;> simp <;> omega
    · split_ifs with h2 <;> omega

theorem gYearStart_succ {gy : ℤ} (h : 0 ≤ gy) :
    gYearStart (gy + 1) = gYearStart gy + 365 + (if gLeap gy then 1 else 0) := by
  rw [gYearStart_of_nonneg h, gYearStart_of_nonneg (by omega)]
  split_ifs with hl
  all_goals
    rw [gLeap_eq_true] at hl
    omega

theorem jYearStart_of_nonneg {jy : ℤ} (h : 0 ≤ jy) : jYearStart jy = 365 * jy + jy / 33 * 8 + (jy % 33 + 3) / 4 := by
  unfold jYearStart
  rw [Int.tdiv_eq_ediv_of_nonneg h, Int.tmod_eq_emod_of_nonneg h, Int.tdiv_eq_ediv_of_nonneg (by omega)]

theorem jYearOf_spec {n : ℤ} (hn : 0 ≤ n) : ∃ jy doy, jYearOf n = (979 + jy, doy) ∧ 0 ≤ jy ∧ 0 ≤ doy ∧
      doy < 365 + (if JalaliLeap (979 + jy) then 1 else 0) ∧ jYearStart jy + doy = n := by
  have hr : 0 ≤ n % 12053 := by omega
  simp only [jYearOf, Int.tdiv_eq_ediv_of_nonneg hn, Int.tmod_eq_emod_of_nonneg hn, Int.tdiv_eq_ediv_of_nonneg hr,
    Int.tmod_eq_emod_of_nonneg hr]
  generalize hq : n / 12053 = q
  generalize hm : n % 12053 = m at *
  by_cases h1 : m % 1461 ≥ 366
  · have hr1 : 0 ≤ m % 1461 - 1 := by omega
    simp only [if_pos h1, Int.tdiv_eq_ediv_of_nonneg hr1, Int.tmod_eq_emod_of_nonneg hr1]
    refine ⟨33 * q + 4 * (m / 1461) + (m % 1461 - 1) / 365, (m % 1461 - 1) % 365, ?_⟩
    rw [jYearStart_of_nonneg (by omega), Prod.mk.injEq]
    refine ⟨⟨by omega, rfl⟩, by omega, by omega, ?_, by omega⟩
    split_ifs <;> omega
  · refine ⟨33 * q + 4 * (m / 1461), m % 1461, ?_⟩
    rw [if_neg h1, jYearStart_of_nonneg (by omega), Prod.mk.injEq]
    refine ⟨⟨by omega, rfl⟩, by omega, by omega, ?_, by omega⟩
    have hy : (979 + (33 * q + 4 * (m / 1461)) - 979) % 33 = 4 * (m / 1461) := by omega
    simp only [JalaliLeap, hy]
    split_ifs <;> omega

theorem jYearStart_succ {jy : ℤ} (h : 0 ≤ jy) :
    jYearStart (jy + 1) = jYearStart jy + 365 + (if JalaliLeap (979 + jy) then 1 else 0) := by
  rw [jYearStart_of_nonneg h, jYearStart_of_nonneg (by omega)]
  simp only [JalaliLeap, add_sub_cancel_left]
  rcases eq_or_ne (jy % 33) 32 with h | h
  · split_ifs <;> omega
  · split_ifs <;> omega

section
variable (leap : Bool)

theorem gMonths_length : (gMonths leap).length = 12 := by
  cases leap <;> rfl

theorem jMonths_length : (jMonths leap).length = 12 := by
  cases leap <;> rfl

theorem gMonths_nonneg : ∀ w ∈ gMonths leap, 0 ≤ w := by
  cases leap <;> decide

theorem jMonths_nonneg : ∀ w ∈ jMonths leap, 0 ≤ w := by
  cases leap <;> decide

theorem gMonths_sum : (gMonths leap).sum = 365 + if leap then 1 else 0 := by
  cases leap <;> rfl

theorem jMonths_sum : (jMonths leap).sum = 365 + if leap then 1 else 0 := by
  cases leap <;> rfl

end

def gregorian : Calendar where
  start := gYearStart
  months gy := gMonths (gLeap gy)
  months_nonneg _ := gMonths_nonneg _
  start_succ gy h := by rw [gYearStart_succ h, gMonths_sum, add_assoc]

def jalali : Calendar where
  start := jYearStart
  months jy := jMonths (decide (JalaliLeap (979 + jy)))
  months_nonneg _ := jMonths_nonneg _
  start_succ jy h := by simp [jYearStart_succ h, jMonths_sum, add_assoc]

open List

theorem offset_gMonths (leap : Bool) (i : ℕ) (hi : i < 12) :
    offset (gMonths leap) i = offset gDaysInMonth i + (if 1 < i ∧ leap then 1 else 0) := by
  revert i leap
  decide

theorem gDayNo_eq (y d : ℤ) (i : ℕ) (hi : i < 12) : gDayNo y (i + 1) d =
      gYearStart (y - 1600) + (offset (gMonths (gLeap (y - 1600))) i + (d - 1)) := by
  rw [offset_gMonths _ _ hi]
  simp only [gDayNo, add_sub_cancel_right, Int.toNat_natCast]
  split_ifs <;> simp_all <;> omega

theorem getElem_mapIdx_leap (days : List ℤ) (k i : ℕ) {b : Bool} {P : Prop} [Decidable P] (hb : b = true ↔ P)
    (h : i < (days.mapIdx fun i n => n + if i == k && b then (1 : ℤ) else 0).length) :
    (days.mapIdx fun i n => n + if i == k && b then (1 : ℤ) else 0)[i] =
      days.getD ((i + 1 : ℤ) - 1).toNat 0 + if (i : ℤ) + 1 = k + 1 ∧ P then 1 else 0 := by
  have hi : i < days.length := by simpa using h
  have hleap : (i == k && b) = true ↔ (i : ℤ) + 1 = k + 1 ∧ P := by
    rw [Bool.and_eq_true, beq_iff_eq, hb, show i = k ↔ (i : ℤ) + 1 = k + 1 by omega]
  simp only [getElem_mapIdx, add_sub_cancel_right, Int.toNat_natCast, getD_eq_getElem?_getD,
    getElem?_eq_getElem hi, Option.getD_some, hleap]

theorem gMonths_getElem (y : ℤ) (i : ℕ) (h : i < (gMonths (gLeap (y - 1600))).length) :
    (gMonths (gLeap (y - 1600)))[i] = gMonthLen y (i + 1) := getElem_mapIdx_leap _ 1 i (gLeap_iff y) h

theorem jMonths_getElem (y : ℤ) (i : ℕ) (h : i < (jMonths (decide (JalaliLeap y))).length) :
    (jMonths (decide (JalaliLeap y)))[i] = jMonthLen y (i + 1) := getElem_mapIdx_leap _ 11 i decide_eq_true_iff h

theorem exists_month {m : ℤ} (h1 : 1 ≤ m) (h2 : m ≤ 12) : ∃ i : ℕ, i < 12 ∧ m = i + 1 :=
  ⟨(m - 1).toNat, by omega, by omega⟩

theorem gDateOf_gDayNo (g : GregDate) (hy : 1600 ≤ g.y) : gDateOf (gDayNo g.y g.m g.d) = (g.y, g.m, g.d) := by
  obtain ⟨y, m, d, hm, hm', hd, hd'⟩ := g
  obtain ⟨i, hi, rfl⟩ := exists_month hm hm'
  have hi' : i < (gMonths (gLeap (y - 1600))).length := by rwa [gMonths_length]
  simp only at hy ⊢
  rw [gDayNo_eq y d i hi]
  have ho := offset_nonneg (gMonths (gLeap (y - 1600))) (gMonths_nonneg _) i
  have hlt := offset_add_lt_sum (gMonths (gLeap (y - 1600))) (gMonths_nonneg _) i hi' (d - 1)
    (by rw [gMonths_getElem]; omega)
  have hn : 0 ≤ gYearStart (y - 1600) := gregorian.start_mono le_rfl (by omega)
  obtain ⟨gy, doy, hof, hgy, hdoy, hdoy', heq⟩ := gYearOf_spec (add_nonneg hn (show
    0 ≤ offset (gMonths (gLeap (y - 1600))) i + (d - 1) by omega))
  obtain ⟨rfl, rfl⟩ := gregorian.eq_of_start_add hgy (by omega) hdoy
    (hdoy'.trans_eq (gMonths_sum _).symm) (by omega) hlt heq
  simp only [gDateOf, hof]
  rw [locate_offset _ (gMonths_nonneg _) i _ hi'.le (by omega) (fun h => by rw [gMonths_getElem]; omega)]
  simp

theorem gDayNo_gDateOf {n : ℤ} (hn : 0 ≤ n) : gDayNo (gDateOf n).1 (gDateOf n).2.1 (gDateOf n).2.2 = n := by
  obtain ⟨gy, doy, hof, hgy, hdoy, hdoy', rfl⟩ := gYearOf_spec hn
  have hadd := offset_locate (gMonths (gLeap gy)) doy
  have hle := locate_fst_le (gMonths (gLeap gy)) doy
  have hyear := offset_length (gMonths (gLeap gy))
  rw [gMonths_length] at hle hyear
  have hnn := locate_snd_nonneg (gMonths (gLeap gy)) doy hdoy
  -- past December the walk would have used up more than a year
  have hne : (locate (gMonths (gLeap gy)) doy).1 ≠ 12 := by
    intro h12
    rw [h12, hyear, gMonths_sum] at hadd
    omega
  simp only [gDateOf, hof]
  rw [gDayNo_eq _ _ _ (by omega), add_sub_cancel_left, add_sub_cancel_right, hadd]

theorem jMonths_take (leap : Bool) : (jMonths leap).take 11 = jDaysInMonth.take 11 := by
  cases leap <;> rfl

theorem jDayNo_eq (leap : Bool) (y d : ℤ) (i : ℕ) (hi : i < 12) :
    jDayNo y (i + 1) d = jYearStart (y - 979) + (offset (jMonths leap) i + (d - 1)) := by
  rw [← offset_take _ 11 i (by omega), jMonths_take, offset_take _ 11 i (by omega)]
  simp [jDayNo, add_assoc]

theorem jDayNo_jDateOf {n : ℤ} (hn : 0 ≤ n) :
    jDayNo (jDateOf (n + 79)).1 (jDateOf (n + 79)).2.1 (jDateOf (n + 79)).2.2 = n := by
  obtain ⟨jy, doy, hof, hjy, hdoy, hdoy', rfl⟩ := jYearOf_spec hn
  have hadd := offset_locate (jDaysInMonth.take 11) doy
  have hle : (locate (jDaysInMonth.take 11) doy).1 ≤ 11 := locate_fst_le (jDaysInMonth.take 11) doy
  rw [offset_take _ _ _ hle] at hadd
  simp only [jDateOf, add_sub_cancel_right, hof, jDayNo, Int.toNat_natCast]
  rw [add_sub_cancel_left]
  omega

theorem jDayNo_nonneg (j : JalaliDate) (hy : 979 ≤ j.y) : 0 ≤ jDayNo j.y j.m j.d := by
  have hn : 0 ≤ jYearStart (j.y - 979) := jalali.start_mono le_rfl (by omega)
  have ho := offset_nonneg jDaysInMonth (by decide) (j.m - 1).toNat
  have hd := j.d_pos
  simp only [jDayNo]
  omega

theorem jDateOf_jDayNo (j : JalaliDate) (hy : 979 ≤ j.y) : jDateOf (jDayNo j.y j.m j.d + 79) = (j.y, j.m, j.d) := by
  obtain ⟨y, m, d, hm, hm', hd, hd'⟩ := j
  obtain ⟨i, hi, rfl⟩ := exists_month hm hm'
  have hi' : i < (jMonths (decide (JalaliLeap y))).length := by rwa [jMonths_length]
  simp only at hy ⊢
  have hno := jDayNo_eq (decide (JalaliLeap y)) y d i hi
  have ho := offset_nonneg (jMonths (decide (JalaliLeap y))) (jMonths_nonneg _) i
  have hlt := offset_add_lt_sum (jMonths (decide (JalaliLeap y))) (jMonths_nonneg _) i hi' (d - 1)
    (by rw [jMonths_getElem]; omega)
  obtain ⟨jy, doy, hof, hjy, hdoy, hdoy', heq⟩ :=
    jYearOf_spec (jDayNo_nonneg ⟨y, i + 1, d, hm, hm', hd, hd'⟩ hy)
  obtain ⟨rfl, rfl⟩ := jalali.eq_of_start_add hjy (show 0 ≤ y - 979 by omega) hdoy
    (hdoy'.trans_eq (by simp [jalali, jMonths_sum])) (by omega) (by simpa [jalali] using hlt)
    (heq.trans hno)
  simp only [jDateOf, add_sub_cancel_right, hof]
  rw [← jMonths_take (decide (JalaliLeap y)), ← offset_take _ 11 i (by omega),
    locate_offset _ (fun w h => jMonths_nonneg _ w (mem_of_mem_take h)) i _
      (by simp [jMonths, jDaysInMonth]; omega) (by omega)
      (fun h => by rw [getElem_take, jMonths_getElem]; omega)]
  simp

theorem gDayNo_ge (g : GregDate) (hg : g.NotBefore 1600 3 20) : 79 ≤ gDayNo g.y g.m g.d := by
  obtain ⟨y, m, d, hm, hm', hd, hd'⟩ := g
  obtain ⟨i, hi, rfl⟩ := exists_month hm hm'
  simp only [GregDate.NotBefore] at hg ⊢
  rw [gDayNo_eq y d i hi]
  have ho := offset_nonneg (gMonths (gLeap (y - 1600))) (gMonths_nonneg _) i
  rcases hg with hy | ⟨rfl, hmd⟩
  · have h1 : gYearStart 1 ≤ gYearStart (y - 1600) := gregorian.start_mono (by omega) (by omega)
    have : gYearStart 1 = 366 := rfl
    omega
  · have h0 : gYearStart (1600 - 1600) = 0 := rfl
    have hmar : 60 + (if 2 < i then 31 else 0) ≤ offset (gMonths (gLeap (1600 - 1600))) i := by
      have h2 : 2 ≤ i := by omega
      clear * - hi h2
      revert i
      decide
    split_ifs at hmar <;> omega

/-- Both conversions go through one day count, and each half of one inverts a half of the other. -/
theorem d13_round_trip : (∀ g : GregDate, g.NotBefore 1600 3 20 → ∀ y m d, d13G2j g.y g.m g.d = (y, m, d) →
      d13J2g y m d = (g.y, g.m, g.d)) ∧
    (∀ j : JalaliDate, j.NotBefore 979 1 1 → ∀ y m d, d13J2g j.y j.m j.d = (y, m, d) →
      d13G2j y m d = (j.y, j.m, j.d)) := by
  constructor
  · intro g hg y m d h
    have hge := gDayNo_ge g hg
    have hy : 1600 ≤ g.y := by rcases hg with h | h <;> omega
    have hback := jDayNo_jDateOf (show 0 ≤ gDayNo g.y g.m g.d - 79 by omega)
    rw [sub_add_cancel, show jDateOf _ = _ from h] at hback
    rw [d13J2g, hback, sub_add_cancel, gDateOf_gDayNo g hy]
  · intro j hj y m d h
    have hy : 979 ≤ j.y := by rcases hj with h | h <;> omega
    have hno := jDayNo_nonneg j hy
    have hback := gDayNo_gDateOf (show 0 ≤ jDayNo j.y j.m j.d + 79 by omega)
    rw [show gDateOf _ = _ from h] at hback
    rw [d13G2j, hback, jDateOf_jDayNo j hy]

theorem d13_round_trip_2013 : d13J2g 1392 2 26 = (2013, 5, 16) ∧ d13G2j 2013 5 16 = (1392, 2, 26) := by
  constructor
  · refine d13_round_trip.1 ⟨2013, 5, 16, by decide, by decide, by decide, by decide⟩
      (.inl (by decide)) 1392 2 26 (by decide)
  · refine d13_round_trip.2 ⟨1392, 2, 26, by decide, by decide, by decide, by decide⟩
      (.inl (by decide)) 2013 5 16 (by decide)

end Prj.Lib13
