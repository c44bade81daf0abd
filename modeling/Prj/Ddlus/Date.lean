import Prj.Lib13.DayNumber

/-! Day numbers of the calculator (`ddlus/console/date.c`). The formula is the one of `lib13`, with
C division, which truncates towards zero; years before 1600 make it work on negative numbers. -/
namespace Prj.Ddlus
open Prj.Base Prj.Lib13

/-- `gdayno`; the text of the function is that of the first half of `d13_g2j`. -/
def gdayno (g_y g_m g_d : ℤ) : ℤ := gDayNo g_y g_m g_d

/-- The range check of `convert_date`. -/
def dateAccepted (date : ℤ × ℤ × ℤ) : Bool :=
  !(date.1 < 100 || date.2.1 > 12 || date.2.1 < 1 || date.2.2 > 31 || date.2.2 < 1)

/-- What `convert_date` reads of a token: whether it is a `TOK_STR`, its text, its value. -/
structure DateTok where
  isStr : Bool
  str : List Char
  val : ℤ

/-- `printe(MSG_FORMAT, tk->str)`: "Bad format [%s]." -/
structure MsgFormat where
  str : List Char
deriving DecidableEq

def isSep (c : Char) : Bool := c == '.' || c == '/' || c == '-' || c == ' '

def atoiDigits (n : ℤ) : List Char → ℤ
  | [] => n
  | c :: cs => if c.isDigit then atoiDigits (10 * n + (c.toNat - '0'.toNat : ℕ)) cs else n

/-- `atoi`: blanks, an optional sign, then digits up to the first other character. -/
def atoi (s : List Char) : ℤ :=
  match s.dropWhile Char.isWhitespace with
  | '-' :: cs => -atoiDigits 0 cs
  | '+' :: cs => atoiDigits 0 cs
  | cs => atoiDigits 0 cs

/-- The text branch of `convert_date`: three fields cut where `strpbrk` finds a separator. -/
def dateOfStr (str : List Char) : Option (ℤ × ℤ × ℤ) :=
  -- `snprintf(datestr, 11, "%s", tk->str)`
  let datestr := str.take 10
  match datestr.span (!isSep ·) with
  | (_, []) => none
  | (y, _ :: rest) =>
    match rest.span (!isSep ·) with
    | (_, []) => none
    | (m, _ :: rest) => some (atoi y, atoi m, atoi (rest.takeWhile (!isSep ·)))

/-- The number branch: the digits of `yyyymmdd`. -/
def dateOfNum (bigdate : ℤ) : ℤ × ℤ × ℤ :=
  let y := bigdate.tdiv 10000
  let m := (bigdate - y * 10000).tdiv 100
  (y, m, bigdate - y * 10000 - m * 100)

/-- `convert_date`: the token's new value, and the session's `calc` counter. -/
def convertDate (ndays : ℤ → ℤ → ℤ → ℤ) (ncalc : ℤ) (tk : DateTok) : Except MsgFormat ℤ × ℤ :=
  let (date, ncalc) :=
    if tk.isStr then (dateOfStr tk.str, ncalc) else (some (dateOfNum tk.val), ncalc - 1)
  match date with
  | none => (.error ⟨tk.str⟩, ncalc)
  | some date =>
    if dateAccepted date then (.ok (ndays date.1 date.2.1 date.2.2), ncalc)
    else (.error ⟨tk.str⟩, ncalc)

theorem gdayno_iterate (g : GregDate) (n : ℕ) (h : ∀ k < n, NextExact (GregDate.next^[k] g)) :
    gdayno (GregDate.next^[n] g).y (GregDate.next^[n] g).m (GregDate.next^[n] g).d = gdayno g.y g.m g.d + n := by
  induction n with
  | zero => simp
  | succ n ih =>
    rw [Function.iterate_succ_apply', gdayno, (gDayNo_next _).2 (h n (by omega)), ← gdayno,
      ih fun k hk => h k (by omega)]
    omega

theorem month_day_mem (g : GregDate) : (1 ≤ g.m ∧ g.m ≤ 12) ∧ 1 ≤ g.d ∧ g.d ≤ 31 :=
  ⟨⟨g.m_pos, g.m_le⟩, g.d_pos, g.d_le.trans (gMonthLen_mem g.m_pos g.m_le).2⟩

theorem dateAccepted_iff (g : GregDate) : dateAccepted (g.y, g.m, g.d) = true ↔ 100 ≤ g.y := by
  have hmem := month_day_mem g
  simp only [dateAccepted, Bool.not_eq_true', Bool.or_eq_false_iff, decide_eq_false_iff_not]
  omega

theorem dateOfNum_eq (g : GregDate) (hy : 0 ≤ g.y) : dateOfNum (g.y * 10000 + g.m * 100 + g.d) = (g.y, g.m, g.d) := by
  have hmem := month_day_mem g
  have hyear : (g.y * 10000 + g.m * 100 + g.d).tdiv 10000 = g.y := by
    rw [Int.tdiv_eq_ediv_of_nonneg (by omega)]
    omega
  have hmon : (g.y * 10000 + g.m * 100 + g.d - g.y * 10000).tdiv 100 = g.m := by
    rw [Int.tdiv_eq_ediv_of_nonneg (by omega)]
    omega
  simp only [dateOfNum, hyear, hmon, Prod.mk.injEq, true_and]
  omega

theorem convertDate_num (g : GregDate) (hy : 100 ≤ g.y) (str : List Char) (ncalc : ℤ) :
    convertDate gdayno ncalc ⟨false, str, g.y * 10000 + g.m * 100 + g.d⟩ = (.ok (gdayno g.y g.m g.d), ncalc - 1) := by
  simp [convertDate, dateOfNum_eq g (by omega), (dateAccepted_iff g).2 hy]

theorem year_le_iterate (g : GregDate) (n : ℕ) : g.y ≤ (GregDate.next^[n] g).y := by
  induction n with
  | zero => exact le_rfl
  | succ n ih =>
    rw [Function.iterate_succ_apply']
    refine ih.trans ?_
    unfold GregDate.next
    split_ifs <;> simp

/-- From 1600 on the difference of two dates typed as `yyyymmdd` is the number of days. -/
theorem convertDate_iterate (g : GregDate) (hy : 1600 ≤ g.y) (n : ℕ) (str str' : List Char) (ncalc : ℤ) :
    let g' := GregDate.next^[n] g
    ∃ d, convertDate gdayno ncalc ⟨false, str, g.y * 10000 + g.m * 100 + g.d⟩ = (.ok d, ncalc - 1) ∧
      convertDate gdayno ncalc ⟨false, str', g'.y * 10000 + g'.m * 100 + g'.d⟩ = (.ok (d + n), ncalc - 1) := by
  refine ⟨_, convertDate_num g (by omega) str ncalc, ?_⟩
  rw [convertDate_num _ (by have := year_le_iterate g n; omega), gdayno_iterate g n]
  intro k _ _ _
  exact .inl (hy.trans (year_le_iterate g k))

theorem convertDate_iterate_2013 : ∃ d, convertDate gdayno 1 ⟨false, [], 20130531⟩ = (.ok d, 0) ∧
    convertDate gdayno 1 ⟨false, [], 20130601⟩ = (.ok (d + 1), 0) :=
  convertDate_iterate ⟨2013, 5, 31, by decide, by decide, by decide, by decide⟩ (by decide) 1 [] [] 1

theorem gdayno_exact_iff (g : GregDate) :
    (gdayno g.next.y g.next.m g.next.d = gdayno g.y g.m g.d + 1 ↔ NextExact g) ∧
      ∀ n : ℕ, (∀ k < n, NextExact (GregDate.next^[k] g)) →
        gdayno (GregDate.next^[n] g).y (GregDate.next^[n] g).m (GregDate.next^[n] g).d = gdayno g.y g.m g.d + n :=
  ⟨gDayNo_next g, gdayno_iterate g⟩

theorem gdayno_exact_2020 : gdayno 2020 3 1 = gdayno 2020 2 28 + 2 := by
  refine (gdayno_exact_iff ⟨2020, 2, 28, by decide, by decide, by decide, by decide⟩).2 2 ?_
  intro k hk
  rcases k with _ | _ | k
  · exact fun hm => absurd hm (by decide)
  · exact fun hm => absurd hm (by decide)
  · omega

theorem gdayno_next_1596 : ∃ g : GregDate, dateAccepted (g.y, g.m, g.d) = true ∧
    gdayno g.next.y g.next.m g.next.d ≠ gdayno g.y g.m g.d + 1 :=
  ⟨⟨1596, 12, 31, by decide, by decide, by decide, by decide⟩, by decide, by decide⟩

end Prj.Ddlus
