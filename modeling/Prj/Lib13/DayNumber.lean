import Prj.Lib13.Day

/-!
Day numbers and the dates that they are made from (`lib13/day13.c`), with the machine's integers.

`unsigned long` has `w` bits, at least 32, and `int` has 32 bits and wraps around. The functions repeat the text of the
halves of `d13_g2j` and `d13_j2g`. A sum is reduced once, where it is stored.
-/
namespace Prj.Lib13
open Prj.Base

section Model
def ulong (w : ℕ) (n : ℤ) : ℤ := n % 2 ^ w

def int32 (n : ℤ) : ℤ := n.bmod (2 ^ 32)

def uint32 (n : ℤ) : ℤ := n % 2 ^ 32

variable (w : ℕ)

def d13Gdayno (g_y g_m g_d : ℤ) : ℤ :=
  let gy := ulong w (g_y - 1600)
  let gm := ulong w (g_m - 1)
  let gd := ulong w (g_d - 1)
  let g_day_no := ulong w (365 * gy + ulong w (gy + 3) / 4 - ulong w (gy + 99) / 100 + ulong w (gy + 399) / 400)
  let g_day_no := ulong w (g_day_no + offset gDaysInMonth gm.toNat)
  -- leap and after Feb
  let g_day_no :=
    if gm > 1 && ((gy % 4 == 0 && gy % 100 != 0) || gy % 400 == 0) then ulong w (g_day_no + 1) else g_day_no
  uint32 (ulong w (g_day_no + gd))

def d13Jdayno (j_y j_m j_d : ℤ) : ℤ :=
  if j_y ≤ 0 ∨ j_m ≤ 0 ∨ j_d ≤ 0 then 0
  else
    let jy := ulong w (j_y - 979)
    let jm := ulong w (j_m - 1)
    let jd := ulong w (j_d - 1)
    let j_day_no := ulong w (365 * jy + jy / 33 * 8 + (jy % 33 + 3) / 4)
    let j_day_no := ulong w (j_day_no + offset jDaysInMonth jm.toNat)
    uint32 (ulong w (j_day_no + jd))

/-- The members of `gdate` and `jdate` are `int`s. -/
def int32Date (date : ℤ × ℤ × ℤ) : ℤ × ℤ × ℤ := (int32 date.1, int32 date.2.1, int32 date.2.2)

/-- From `gy = 1600 + 400*(g_day_no/ 146097)` on it is the second half of `d13_j2g`. -/
def d13Jdayno2gdate (j_day_no : ℤ) : ℤ × ℤ × ℤ := int32Date (gDateOf (ulong w (j_day_no + 79)))

/-- The Jalali date of a day number: the second half of `d13_g2j`. -/
def jDateOfNo (j_day_no : ℤ) : ℤ × ℤ × ℤ :=
  let (jy, j_day_no) := jYearOf j_day_no
  let (i, j_day_no) := locate (jDaysInMonth.take 11) j_day_no
  int32Date (jy, i + 1, j_day_no + 1)

def d13Gdayno2jdate (g_day_no : ℤ) : ℤ × ℤ × ℤ := jDateOfNo (ulong w (g_day_no - 79))

/-- `d13_g2j` with numbers that wrap around. -/
def d13G2jInt (g_y g_m g_d : ℤ) : ℤ × ℤ × ℤ :=
  let g_day_no := int32 (gDayNo g_y g_m g_d)
  let j_day_no := int32 (g_day_no - 79)
  jDateOfNo j_day_no

def d13Jdayno2jdate (j_day_no : ℤ) : ℤ × ℤ × ℤ :=
  let gdate := d13Jdayno2gdate w j_day_no
  d13G2jInt gdate.1 gdate.2.1 gdate.2.2

end Model

section Words
variable {w : ℕ} {n : ℤ}

theorem ulong_of_lt (hw : 32 ≤ w) (h0 : 0 ≤ n) (hn : n < 2 ^ 32) : ulong w n = n :=
  Int.emod_eq_of_lt h0 (hn.trans_le (pow_le_pow_right₀ (by decide) hw))

theorem uint32_of_lt (h0 : 0 ≤ n) (hn : n < 2 ^ 32) : uint32 n = n := Int.emod_eq_of_lt h0 hn

theorem int32_of_lt (h0 : 0 ≤ n) (hn : n < 2 ^ 31) : int32 n = n := by
  unfold int32
  rw [Int.bmod_eq_of_le]
  · omega
  · omega

end Words

section Numbers
variable {w : ℕ}

theorem gYearStart_ge {gy : ℤ} (h : 0 ≤ gy) : 365 * gy ≤ gYearStart gy := by
  rw [gYearStart_of_nonneg h]
  omega

theorem jYearStart_ge {jy : ℤ} (h : 0 ≤ jy) : 365 * jy ≤ jYearStart jy := by
  rw [jYearStart_of_nonneg h]
  omega

theorem d13Gdayno_eq (hw : 32 ≤ w) {y m d : ℤ} (hy : 1600 ≤ y) (hm : 1 ≤ m) (hm' : m ≤ 12) (hd : 1 ≤ d)
    (hlt : gDayNo y m d ≤ 2 ^ 31) : d13Gdayno w y m d = gDayNo y m d := by
  have hoff := offset_nonneg gDaysInMonth (by decide) (m - 1).toNat
  have hstart := gYearStart_ge (show 0 ≤ y - 1600 by omega)
  have hleap : ((y - 1600) % 4 == 0 && (y - 1600) % 100 != 0 || (y - 1600) % 400 == 0) = gLeap (y - 1600) := by
    rw [Bool.eq_iff_iff, gLeap_eq_true]
    simp
  simp only [gDayNo] at hlt ⊢
  have hyear : ulong w (365 * (y - 1600) + ulong w (y - 1600 + 3) / 4 - ulong w (y - 1600 + 99) / 100 +
      ulong w (y - 1600 + 399) / 400) = gYearStart (y - 1600) := by
    rw [ulong_of_lt hw (n := y - 1600 + 3) (by omega) (by omega),
      ulong_of_lt hw (n := y - 1600 + 99) (by omega) (by omega),
      ulong_of_lt hw (n := y - 1600 + 399) (by omega) (by omega), ← gYearStart_of_nonneg (by omega)]
    exact ulong_of_lt hw (by omega) (by omega)
  simp only [d13Gdayno, ulong_of_lt hw (n := y - 1600) (by omega) (by omega), hyear,
    ulong_of_lt hw (n := m - 1) (by omega) (by omega), ulong_of_lt hw (n := d - 1) (by omega) (by omega), hleap]
  rw [ulong_of_lt hw (n := gYearStart (y - 1600) + _) (by omega) (by omega)]
  split_ifs with h
  · rw [ulong_of_lt hw (n := gYearStart (y - 1600) + _ + 1) (by omega) (by omega), ulong_of_lt hw (by omega) (by omega),
      uint32_of_lt (by omega) (by omega)]
  · rw [ulong_of_lt hw (by omega) (by omega), uint32_of_lt (by omega) (by omega)]

theorem d13Jdayno_eq (hw : 32 ≤ w) {y m d : ℤ} (hy : 979 ≤ y) (hm : 1 ≤ m) (hm' : m ≤ 12) (hd : 1 ≤ d)
    (hlt : jDayNo y m d ≤ 2 ^ 31) : d13Jdayno w y m d = jDayNo y m d := by
  have hoff := offset_nonneg jDaysInMonth (by decide) (m - 1).toNat
  have hstart := jYearStart_ge (show 0 ≤ y - 979 by omega)
  simp only [jDayNo] at hlt ⊢
  have hyear : ulong w (365 * (y - 979) + (y - 979) / 33 * 8 + ((y - 979) % 33 + 3) / 4) = jYearStart (y - 979) := by
    rw [← jYearStart_of_nonneg (by omega)]
    exact ulong_of_lt hw (by omega) (by omega)
  simp only [d13Jdayno, if_neg (show ¬ (y ≤ 0 ∨ m ≤ 0 ∨ d ≤ 0) by omega),
    ulong_of_lt hw (n := y - 979) (by omega) (by omega), hyear, ulong_of_lt hw (n := m - 1) (by omega) (by omega),
    ulong_of_lt hw (n := d - 1) (by omega) (by omega)]
  rw [ulong_of_lt hw (n := jYearStart (y - 979) + _) (by omega) (by omega), ulong_of_lt hw (by omega) (by omega),
    uint32_of_lt (by omega) (by omega)]

end Numbers

section Greg
theorem gMonthLen_mem {y m : ℤ} (h1 : 1 ≤ m) (h2 : m ≤ 12) : 1 ≤ gMonthLen y m ∧ gMonthLen y m ≤ 31 := by
  obtain ⟨i, hi, rfl⟩ := exists_month h1 h2
  have hle : ∀ j < 12, 1 ≤ gDaysInMonth.getD j 0 ∧ gDaysInMonth.getD j 0 + (if j = 1 then 1 else 0) ≤ 31 := by decide
  have := hle i hi
  simp only [gMonthLen, add_sub_cancel_right, Int.toNat_natCast]
  split_ifs at this ⊢ <;> omega

def GregDate.next (g : GregDate) : GregDate :=
  have hm0 := g.m_pos
  have hd0 := g.d_pos
  if hd : g.d < gMonthLen g.y g.m then
    ⟨g.y, g.m, g.d + 1, hm0, g.m_le, by omega, hd⟩
  else if hm : g.m < 12 then
    ⟨g.y, g.m + 1, 1, by omega, hm, le_rfl, (gMonthLen_mem (by omega) hm).1⟩
  else ⟨g.y + 1, 1, 1, le_rfl, by decide, le_rfl, (gMonthLen_mem le_rfl (by decide)).1⟩

/-- The years whose last day is followed by the right number. From 1600 on that is every year;
before, the truncated quotients count the leap day of a year at the end of the next one. -/
def YearEndExact (y : ℤ) : Prop :=
  1600 ≤ y ∨ y % 4 = 2 ∨ y % 4 = 3 ∨ (y % 100 = 0 ∧ y % 400 ≠ 0) ∨ y = 1597 ∨
    (y % 100 = 1 ∧ y < 1501 ∧ (y % 400 = 1 → 1200 < y))

/-- Below zero a truncating quotient grows one step after a multiple, not on it. -/
theorem tdiv_succ_of_neg {x : ℤ} (h : x < 0) (k : ℕ) : (x + 1).tdiv k = x.tdiv k + if (k : ℤ) ∣ x then 1 else 0 := by
  obtain ⟨n, rfl⟩ : ∃ n : ℕ, x = -((n + 1 : ℕ) : ℤ) := ⟨(-x - 1).toNat, by omega⟩
  have hx : -((n + 1 : ℕ) : ℤ) + 1 = -(n : ℤ) := by omega
  have hs : (n + 1) / k = n / k + if k ∣ n + 1 then 1 else 0 := Nat.succ_div
  simp only [hx, Int.neg_tdiv, Int.dvd_neg, Int.natCast_dvd_natCast, ← Int.ofNat_tdiv, hs]
  split_ifs <;> omega

theorem tdiv_step {gy : ℤ} (h : gy < 0) (k : ℕ) : (gy + k).tdiv k =
    (gy + k - 1).tdiv k + if gy + k - 1 < 0 ∧ (k : ℤ) ∣ gy + k - 1 then 1 else 0 := by
  rcases lt_or_ge (gy + k - 1) 0 with hneg | hnn
  · simpa [hneg] using tdiv_succ_of_neg hneg k
  · rw [Int.tdiv_eq_zero_of_lt (by omega) (by omega), Int.tdiv_eq_zero_of_lt hnn (by omega), if_neg (by omega)]
    rfl

theorem gYearStart_succ_of_neg {gy : ℤ} (h : gy < 0) : gYearStart (gy + 1) = gYearStart gy + 365 +
    (if gy + 3 < 0 ∧ 4 ∣ gy + 3 then 1 else 0) - (if gy + 99 < 0 ∧ 100 ∣ gy + 99 then 1 else 0) +
    (if gy + 399 < 0 ∧ 400 ∣ gy + 399 then 1 else 0) := by
  have h4 := tdiv_step h 4
  have h100 := tdiv_step h 100
  have h400 := tdiv_step h 400
  simp only [Nat.cast_ofNat, add_sub_assoc, Int.reduceSub] at h4 h100 h400
  simp only [gYearStart, add_assoc gy, Int.reduceAdd, h4, h100, h400]
  omega

theorem gYearStart_succ_iff (y : ℤ) :
    gYearStart (y + 1 - 1600) = gYearStart (y - 1600) + 365 + (if GregLeap y then 1 else 0) ↔ YearEndExact y := by
  rcases lt_or_ge y 1600 with hlt | hge
  · have h := gYearStart_succ_of_neg (show y - 1600 < 0 by omega)
    have h4 : (4 : ℤ) ∣ y - 1600 + 3 ↔ y % 4 = 1 := by omega
    have h100 : (100 : ℤ) ∣ y - 1600 + 99 ↔ y % 100 = 1 := by omega
    have h400 : (400 : ℤ) ∣ y - 1600 + 399 ↔ y % 400 = 1 := by omega
    rw [show y + 1 - 1600 = y - 1600 + 1 by omega, h]
    simp only [h4, h100, h400, YearEndExact]
    by_cases hl : GregLeap y
    · have hl' : y % 4 = 0 ∧ y % 100 ≠ 0 ∨ y % 400 = 0 := hl
      split_ifs <;> omega
    · have hl' : ¬ (y % 4 = 0 ∧ y % 100 ≠ 0 ∨ y % 400 = 0) := hl
      split_ifs <;> omega
  · have h := gYearStart_succ (show 0 ≤ y - 1600 by omega)
    rw [show y + 1 - 1600 = y - 1600 + 1 by omega, h]
    simp [gLeap_iff, YearEndExact, hge]

theorem gDayNo_succ_day (y m d : ℤ) : gDayNo y m (d + 1) = gDayNo y m d + 1 := by
  simp only [gDayNo]
  omega

theorem gDayNo_succ_month (y : ℤ) {m : ℤ} (h1 : 1 ≤ m) (h2 : m < 12) :
    gDayNo y (m + 1) 1 = gDayNo y m (gMonthLen y m) + 1 := by
  obtain ⟨i, hi, rfl⟩ := exists_month h1 h2.le
  have hi' : i < (gMonths (gLeap (y - 1600))).length := by rwa [gMonths_length]
  have hcast : (i : ℤ) + 1 + 1 = ((i + 1 : ℕ) : ℤ) + 1 := by omega
  rw [hcast, gDayNo_eq y 1 (i + 1) (by omega), gDayNo_eq y _ i hi, offset_succ _ _ hi', gMonths_getElem]
  omega

theorem gDayNo_succ_year (y : ℤ) : gDayNo (y + 1) 1 1 = gDayNo y 12 31 + 1 ↔ YearEndExact y := by
  have h1 : gDayNo (y + 1) 1 1 = _ := gDayNo_eq (y + 1) 1 0 (by decide)
  have h12 : gDayNo y 12 31 = _ := gDayNo_eq y 31 11 (by decide)
  have hlast : offset (gMonths (gLeap (y - 1600))) 11 = 334 + if GregLeap y then 1 else 0 := by
    simp only [← gLeap_iff]
    cases gLeap (y - 1600) <;> rfl
  rw [← gYearStart_succ_iff, h1, h12, offset_zero]
  omega

def NextExact (g : GregDate) : Prop := g.m = 12 → g.d = 31 → YearEndExact g.y

/-- Inside a year the day after has the next number; at the end of one, exactly in the years of
`YearEndExact`. -/
theorem gDayNo_next (g : GregDate) :
    gDayNo g.next.y g.next.m g.next.d = gDayNo g.y g.m g.d + 1 ↔ NextExact g := by
  have hpos := g.m_pos
  have hle := g.m_le
  have hd := g.d_le
  have hdec : gMonthLen g.y 12 = 31 := rfl
  unfold GregDate.next NextExact
  split_ifs with h1 h2
  · simp only [gDayNo_succ_day, true_iff]
    intro hm hd31
    rw [hm] at h1
    omega
  · have hlast : g.d = gMonthLen g.y g.m := by omega
    simp only [gDayNo_succ_month _ hpos h2, hlast, true_iff]
    omega
  · have hm : g.m = 12 := by omega
    rw [hm] at h1 hd
    have hlast : g.d = 31 := by omega
    simp only [hm, hlast, gDayNo_succ_year, forall_const]

end Greg

section Dates
variable {w : ℕ} {n : ℤ}

theorem jMonthLen_pos {y m : ℤ} (h1 : 1 ≤ m) (h2 : m ≤ 12) : 1 ≤ jMonthLen y m := by
  obtain ⟨i, hi, rfl⟩ := exists_month h1 h2
  have hpos : ∀ j < 12, 1 ≤ jDaysInMonth.getD j 0 := by decide
  have := hpos i hi
  simp only [jMonthLen, add_sub_cancel_right, Int.toNat_natCast]
  split_ifs <;> omega

def JalaliDate.next (j : JalaliDate) : JalaliDate :=
  have hm0 := j.m_pos
  have hd0 := j.d_pos
  if hd : j.d < jMonthLen j.y j.m then ⟨j.y, j.m, j.d + 1, hm0, j.m_le, by omega, hd⟩
  else if hm : j.m < 12 then ⟨j.y, j.m + 1, 1, by omega, hm, le_rfl, jMonthLen_pos (by omega) hm⟩
  else ⟨j.y + 1, 1, 1, le_rfl, by decide, le_rfl, jMonthLen_pos le_rfl (by decide)⟩

theorem jDayNo_succ_month (y : ℤ) {m : ℤ} (h1 : 1 ≤ m) (h2 : m < 12) :
    jDayNo y (m + 1) 1 = jDayNo y m (jMonthLen y m) + 1 := by
  obtain ⟨i, hi, rfl⟩ := exists_month h1 h2.le
  have hi' : i < (jMonths (decide (JalaliLeap y))).length := by rwa [jMonths_length]
  have hcast : (i : ℤ) + 1 + 1 = ((i + 1 : ℕ) : ℤ) + 1 := by omega
  rw [hcast, jDayNo_eq (decide (JalaliLeap y)) y 1 (i + 1) (by omega), jDayNo_eq (decide (JalaliLeap y)) y _ i hi,
    offset_succ _ _ hi', jMonths_getElem]
  omega

theorem jDayNo_succ_year {y : ℤ} (hy : 979 ≤ y) : jDayNo (y + 1) 1 1 = jDayNo y 12 (jMonthLen y 12) + 1 := by
  have h1 : jDayNo (y + 1) 1 1 = jYearStart (y - 979 + 1) := by
    rw [show y - 979 + 1 = y + 1 - 979 by omega]
    simp [jDayNo]
  have hsucc := jYearStart_succ (show 0 ≤ y - 979 by omega)
  have hlast : offset jDaysInMonth 11 = 336 := rfl
  have hlen : jMonthLen y 12 = 29 + if JalaliLeap y then 1 else 0 := by simp [jMonthLen, jDaysInMonth]
  rw [h1, hsucc, show 979 + (y - 979) = y by omega]
  simp only [jDayNo, show ((12 : ℤ) - 1).toNat = 11 from rfl, hlast]
  omega

theorem jDayNo_next (j : JalaliDate) (hy : 979 ≤ j.y) : jDayNo j.next.y j.next.m j.next.d = jDayNo j.y j.m j.d + 1 := by
  have hm' := j.m_le
  have hd' := j.d_le
  unfold JalaliDate.next
  split_ifs with hd hm
  · simp only [jDayNo]
    omega
  · have hlast : j.d = jMonthLen j.y j.m := by omega
    have hstep := jDayNo_succ_month j.y j.m_pos hm
    rwa [← hlast] at hstep
  · have hlast : j.d = jMonthLen j.y j.m := by omega
    have hmonth : j.m = 12 := by omega
    have hstep := jDayNo_succ_year hy
    rwa [← hmonth, ← hlast] at hstep

theorem int32Date_gDateOf (h0 : 0 ≤ n) (hn : n < 2 ^ 32) : int32Date (gDateOf n) = gDateOf n := by
  obtain ⟨gy, doy, hof, hgy, hdoy, hdoy', heq⟩ := gYearOf_spec h0
  have hstart := gYearStart_ge hgy
  have hadd := offset_locate (gMonths (gLeap gy)) doy
  have hoff := offset_nonneg (gMonths (gLeap gy)) (gMonths_nonneg _) (locate (gMonths (gLeap gy)) doy).1
  have hle := locate_fst_le (gMonths (gLeap gy)) doy
  have hnn := locate_snd_nonneg (gMonths (gLeap gy)) doy hdoy
  rw [gMonths_length] at hle
  simp only [gDateOf, hof, int32Date]
  rw [int32_of_lt (by omega) (by omega), int32_of_lt (by omega) (by omega), int32_of_lt (by omega) (by omega)]

theorem jDateOf_bounds (h0 : 0 ≤ n) (hn : n < 2 ^ 31) : (979 ≤ (jDateOf (n + 79)).1 ∧ (jDateOf (n + 79)).1 < 2 ^ 31) ∧
    (1 ≤ (jDateOf (n + 79)).2.1 ∧ (jDateOf (n + 79)).2.1 ≤ 12) ∧
    1 ≤ (jDateOf (n + 79)).2.2 ∧ (jDateOf (n + 79)).2.2 ≤ 366 := by
  obtain ⟨jy, doy, hof, hjy, hdoy, hdoy', heq⟩ := jYearOf_spec h0
  have hstart := jYearStart_ge hjy
  have hadd := offset_locate (jDaysInMonth.take 11) doy
  have hoff := offset_nonneg (jDaysInMonth.take 11) (by decide) (locate (jDaysInMonth.take 11) doy).1
  have hle : (locate (jDaysInMonth.take 11) doy).1 ≤ 11 := locate_fst_le (jDaysInMonth.take 11) doy
  have hnn := locate_snd_nonneg (jDaysInMonth.take 11) doy hdoy
  simp only [jDateOf, add_sub_cancel_right, hof]
  omega

theorem jDateOfNo_eq (h0 : 0 ≤ n) (hn : n < 2 ^ 31) : jDateOfNo n = jDateOf (n + 79) := by
  obtain ⟨⟨hy, hy'⟩, ⟨hm, hm'⟩, hd, hd'⟩ := jDateOf_bounds h0 hn
  have hdate : int32Date (jDateOf (n + 79)) = jDateOf (n + 79) := by
    rw [int32Date, int32_of_lt (by omega) hy', int32_of_lt (by omega) (by omega), int32_of_lt (by omega) (by omega)]
  rw [← hdate, jDateOf, add_sub_cancel_right]
  rfl

theorem d13Jdayno2gdate_eq (hw : 32 ≤ w) (h0 : 0 ≤ n) (hn : n < 2 ^ 31) : d13Jdayno2gdate w n = gDateOf (n + 79) := by
  rw [d13Jdayno2gdate, ulong_of_lt hw (by omega) (by omega), int32Date_gDateOf (by omega) (by omega)]

theorem d13G2jInt_eq {y m d : ℤ} (h : gDayNo y m d = n + 79) (h0 : 0 ≤ n) (hn : n < 2 ^ 31) :
    d13G2jInt y m d = jDateOf (n + 79) := by
  have hsub : int32 (int32 (n + 79) - 79) = n := by
    have hbmod : int32 (int32 (n + 79) - 79) = int32 (n + 79 - 79) := Int.bmod_sub_bmod
    rw [hbmod, add_sub_cancel_right, int32_of_lt h0 hn]
  simp only [d13G2jInt, h, hsub, jDateOfNo_eq h0 hn]

/-- The day counts go on by one from day to day, and each conversion inverts the count of its calendar. -/
theorem d13_dayno (w : ℕ) (hw : 32 ≤ w) : (∀ g : GregDate, g.NotBefore 1600 3 20 → gDayNo g.y g.m g.d < 2 ^ 31 →
      d13Gdayno w g.next.y g.next.m g.next.d = d13Gdayno w g.y g.m g.d + 1 ∧
      (∀ y m d, d13G2jInt g.y g.m g.d = (y, m, d) → d13Jdayno w y m d = uint32 (d13Gdayno w g.y g.m g.d - 79)) ∧
      d13Jdayno2gdate w (uint32 (d13Gdayno w g.y g.m g.d - 79)) = (g.y, g.m, g.d)) ∧
    (∀ j : JalaliDate, j.NotBefore 979 1 1 → jDayNo j.y j.m j.d < 2 ^ 31 →
      d13Jdayno w j.next.y j.next.m j.next.d = d13Jdayno w j.y j.m j.d + 1 ∧
      d13Jdayno2jdate w (d13Jdayno w j.y j.m j.d) = (j.y, j.m, j.d) ∧
      d13Gdayno2jdate w (uint32 (d13Jdayno w j.y j.m j.d + 79)) = (j.y, j.m, j.d)) := by
  constructor
  · intro g hg hlt
    have hy : 1600 ≤ g.y := by rcases hg with h | h <;> omega
    have hge := gDayNo_ge g hg
    have hnext : gDayNo _ _ _ = gDayNo _ _ _ + 1 := (gDayNo_next g).2 fun _ _ => .inl hy
    have hynext : 1600 ≤ g.next.y := by
      unfold GregDate.next
      split_ifs
      · exact hy
      · exact hy
      · exact hy.trans (by simp)
    have hno := d13Gdayno_eq hw hy g.m_pos g.m_le g.d_pos hlt.le
    have hno' := d13Gdayno_eq hw hynext g.next.m_pos g.next.m_le g.next.d_pos (by omega)
    obtain ⟨n, hn⟩ : ∃ n, gDayNo g.y g.m g.d = n + 79 := ⟨_, (sub_add_cancel _ 79).symm⟩
    have hsub : uint32 (n + 79 - 79) = n := by rw [add_sub_cancel_right, uint32_of_lt (by omega) (by omega)]
    rw [hno, hno', hnext, hn, hsub]
    refine ⟨rfl, fun y m d hdate => ?_, ?_⟩
    · rw [d13G2jInt_eq hn (by omega) (by omega)] at hdate
      obtain ⟨⟨hy, -⟩, ⟨hm, hm'⟩, hd, -⟩ := jDateOf_bounds (show 0 ≤ n by omega) (by omega)
      have hback := jDayNo_jDateOf (show 0 ≤ n by omega)
      rw [hdate] at hy hm hm' hd hback
      rw [d13Jdayno_eq hw hy hm hm' hd (by omega), hback]
    · rw [d13Jdayno2gdate_eq hw (by omega) (by omega), ← hn, gDateOf_gDayNo g hy]
  · intro j hj hlt
    have hy : 979 ≤ j.y := by rcases hj with h | h <;> omega
    have h0 := jDayNo_nonneg j hy
    have hnext := jDayNo_next j hy
    have hynext : 979 ≤ j.next.y := by
      unfold JalaliDate.next
      split_ifs
      · exact hy
      · exact hy
      · exact hy.trans (by simp)
    have hno := d13Jdayno_eq hw hy j.m_pos j.m_le j.d_pos hlt.le
    have hno' := d13Jdayno_eq hw hynext j.next.m_pos j.next.m_le j.next.d_pos (by omega)
    have hdate := jDateOf_jDayNo j hy
    rw [hno, hno', hnext]
    refine ⟨rfl, ?_, ?_⟩
    · have hback := gDayNo_gDateOf (show 0 ≤ jDayNo j.y j.m j.d + 79 by omega)
      rw [d13Jdayno2jdate, d13Jdayno2gdate_eq hw h0 hlt]
      rw [d13G2jInt_eq hback h0 hlt, hdate]
    · rw [uint32_of_lt (by omega) (by omega), d13Gdayno2jdate, add_sub_cancel_right,
        ulong_of_lt hw h0 (by omega), jDateOfNo_eq h0 hlt, hdate]

theorem d13_dayno_2013 : d13Jdayno2gdate 32 (uint32 (d13Gdayno 32 2013 5 16 - 79)) = (2013, 5, 16) ∧
    d13Jdayno2jdate 32 (d13Jdayno 32 1392 2 26) = (1392, 2, 26) := by
  have hg := (d13_dayno 32 le_rfl).1 ⟨2013, 5, 16, by decide, by decide, by decide, by decide⟩ (.inl (by decide))
    (by decide)
  have hj := (d13_dayno 32 le_rfl).2 ⟨1392, 2, 26, by decide, by decide, by decide, by decide⟩ (.inl (by decide))
    (by decide)
  exact ⟨hg.2.2, hj.2.1⟩

end Dates
end Prj.Lib13
