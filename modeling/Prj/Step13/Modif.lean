import Prj.Step13.Path

/-!
What `add_remove` in `modif.c` returns for a list of paths or tags.

`addrm` is any of the functions that the pointer is set to; it sees the calls made so far with their codes. A call gives
`none` where the source reads in front of a string.
-/
namespace Prj.Step13
open List Option

section Model
abbrev Log := List (Path × ℤ)

def listDelim : UInt8 := 59

/-- `s13_exparts` without packs and escapes: every delimiter that `strstr` finds counts, and the end does. -/
def s13Exparts (str : Path) : Option ℕ :=
  if str = [] then some 0
  else if str = [listDelim] then none
  else some (str.count listDelim + 1 - if str.getLast? = some listDelim then 1 else 0)

def s13FixLastDelim (str : Path) : Option Path :=
  if str = [] ∨ str = [listDelim] then none
  else some (if str.getLast? = some listDelim then str.dropLast else str)

def s13Explode (str : Path) : Option (List Path) := (s13FixLastDelim str).map (·.splitOn listDelim)

variable (addrm : Log → Path → ℤ)

def record (log : Log) (arg : Path) : ℤ × Log := (addrm log arg, (arg, addrm log arg) :: log)

/-- `while(nlist)`, on the elements from the last on. -/
def addLoop : List Path → ℤ × Log → ℤ × Log
  | [], r => r
  | a :: list, (_, log) => addLoop list (record addrm log a)

def addRemove (arg : Path) : Option (ℤ × Log) := do
  let nlist ← s13Exparts arg
  if nlist = 1 then some (record addrm [] arg)
  else
    let list ← s13Explode arg
    if list.length ≠ nlist then some (-1, []) else some (addLoop addrm list.reverse (0, []))

end Model

def Failed (log : Log) : Prop := ∃ x ∈ log, x.2 ≠ 0

/-- A code that is not 0 is returned if a call for an element fails. -/
def ReportsFailures (arg : Path) : Prop :=
  ∀ addrm, ∃ r, addRemove addrm arg = some r ∧ (Failed r.2 → r.1 ≠ 0)

theorem length_splitOn (str : Path) : (str.splitOn listDelim).length = str.count listDelim + 1 := by
  induction str with
  | nil => rfl
  | cons c str ih =>
    rw [splitOn, splitOnP_cons_eq_if_modifyHead, ← splitOn]
    by_cases hc : c = listDelim
    · simp [hc, ih]
    · simp [hc, ih, count_cons_of_ne]

theorem s13Exparts_of_explode {arg : Path} {list : List Path} (h : s13Explode arg = some list) :
    s13Exparts arg = some list.length ∧ list ≠ [] := by
  obtain ⟨str, hstr, rfl⟩ := map_eq_some_iff.1 h
  unfold s13FixLastDelim at hstr
  split_ifs at hstr with hshort hlast
  all_goals
    rw [not_or] at hshort
    rw [s13Exparts, if_neg hshort.1, if_neg hshort.2, length_splitOn, ← some.inj hstr]
    refine ⟨congrArg some ?_, splitOn_ne_nil _ _⟩
  · rw [if_pos hlast, ← dropLast_append_getLast? _ hlast]
    simp
  · rw [if_neg hlast, Nat.sub_zero]

/-- Only the first call fails. -/
def firstFails (log : Log) (_ : Path) : ℤ := if log = [] then 1 else 0

theorem addLoop_firstFails {list : List Path} {r : ℤ × Log} (hr : Failed r.2) (hret : list ≠ [] ∨ r.1 = 0) :
    Failed (addLoop firstFails list r).2 ∧ (addLoop firstFails list r).1 = 0 := by
  induction list generalizing r with
  | nil => exact ⟨hr, hret.resolve_left (absurd rfl)⟩
  | cons a list ih =>
    obtain ⟨x, hx, hne⟩ := hr
    exact ih ⟨x, mem_cons_of_mem _ hx, hne⟩ (.inr (if_neg (ne_nil_of_mem hx)))

/-- The elements are taken from the last on and each code replaces the one before, so a list of one only is safe. -/
theorem reportsFailures_iff (arg : Path) : ReportsFailures arg ↔ s13Exparts arg = some 1 := by
  constructor
  · intro hrep
    obtain ⟨r, hr, hreport⟩ := hrep firstFails
    obtain ⟨n, hn, hr⟩ := bind_eq_some_iff.1 hr
    by_contra hone
    have hn1 : n ≠ 1 := fun h => hone (h ▸ hn)
    rw [if_neg hn1] at hr
    obtain ⟨list, hlist, hr⟩ := bind_eq_some_iff.1 hr
    obtain ⟨hlen, hnil⟩ := s13Exparts_of_explode hlist
    rw [if_neg (not_not.2 (some.inj (hlen.symm.trans hn)))] at hr
    obtain ⟨a, rest, hrev⟩ := exists_cons_of_ne_nil (reverse_ne_nil_iff.2 hnil)
    have hrest : rest ≠ [] := by
      rintro rfl
      exact hone (by rw [hlen, ← length_reverse, hrev]; rfl)
    rw [hrev] at hr
    obtain ⟨hfailed, hzero⟩ := addLoop_firstFails (r := record firstFails [] a)
      ⟨(a, 1), mem_cons_self, Int.one_ne_zero⟩ (.inl hrest)
    exact hreport (some.inj hr ▸ hfailed) (some.inj hr ▸ hzero)
  · intro h addrm
    refine ⟨record addrm [] arg, by rw [addRemove, h]; rfl, ?_⟩
    simp [record, Failed]

/-- The second of two tags fails, and the code is that of the first. -/
theorem not_reportsFailures_two : ¬ ReportsFailures (ascii ['a', ';', 'b']) := by
  intro hrep
  obtain ⟨r, hr, hreport⟩ := hrep firstFails
  have hrun : addRemove firstFails (ascii ['a', ';', 'b']) = some (0, [(ascii ['a'], 0), (ascii ['b'], 1)]) := by decide
  obtain rfl := some.inj (hrun.symm.trans hr)
  exact hreport ⟨(ascii ['b'], 1), by simp, Int.one_ne_zero⟩ rfl

end Prj.Step13
