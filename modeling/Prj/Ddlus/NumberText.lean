import Prj.Ddlus.NumberWords

/-!
Which decimal numbers have the same text (`nt_convert_str` in `ddlus/console/num2text_en.c`).
-/
namespace Prj.Ddlus.Num2text
open Prj.Base List

/-- A decimal number without redundant zeros, with at most 15 digits before and behind the point; `frac` is empty if
there is no point. -/
structure Decimal where
  neg : Bool
  int : List Char
  frac : List Char
  int_digits : Digits int
  int_ne_nil : int ≠ []
  int_length : int.length ≤ 15
  int_zero : int = ['0'] ∨ int.head? ≠ some '0'
  frac_digits : Digits frac
  frac_length : frac.length ≤ 15
  frac_zero : frac.getLast? ≠ some '0'

namespace Decimal
variable {huge : ℕ → ℤ} {d d' : Decimal} {s s' part : List Char}

def str (d : Decimal) : List Char :=
  (if d.neg then ['-'] else []) ++ d.int ++ if d.frac = [] then [] else '.' :: d.frac

def front (huge : ℕ → ℤ) (d : Decimal) : List (List Char) :=
  (if d.neg then [wordMinus] else []) ++ wordsOf huge d.int

def back (huge : ℕ → ℤ) (d : Decimal) : List (List Char) :=
  if d.frac = [] then [] else wordDot :: wordsOf huge d.frac

def words (huge : ℕ → ℤ) (d : Decimal) : List (List Char) := d.front huge ++ d.back huge

def Alike (huge : ℕ → ℤ) (d d' : Decimal) : Prop :=
  d.neg = d'.neg ∧ key huge d.int = key huge d'.int ∧ (d.frac = [] ↔ d'.frac = []) ∧ key huge d.frac = key huge d'.frac

/-- Nothing is lost: the fraction does not start with a zero, and `atoi` takes no number beyond `int` for zero. -/
def Plain (huge : ℕ → ℤ) (d : Decimal) : Prop :=
  d.frac.head? ≠ some '0' ∧ (atoi huge d.int = 0 → partVal d.int = 0) ∧ (atoi huge d.frac = 0 → partVal d.frac = 0)

theorem ne_of_isDigit {c x : Char} (h : c.isDigit = true) (hx : x.isDigit = false) : c ≠ x := by
  rintro rfl
  rw [h] at hx
  cases hx

theorem int_head (d : Decimal) : d.int.head? ≠ some '-' := by
  intro hhead
  exact ne_of_isDigit (d.int_digits _ (mem_of_mem_head? hhead)) rfl rfl

theorem ntConvertStr_str {tail tail' : List Char} (htail : Stops tail) (htail' : Stops tail') (d : Decimal) :
    ntConvertStr huge tail tail' d.str = (1, joined ' ' (d.words huge)) := by
  have hsign : ∀ c ∈ (if d.neg then ['-'] else []) ++ d.int, c ≠ '.' := by
    intro c hc
    rcases mem_append.1 hc with hc | hc
    · split at hc
      · rw [mem_singleton.1 hc]
        decide
      · cases hc
    · exact ne_of_isDigit (d.int_digits c hc) rfl
  have hint : d.str.takeWhile (· ≠ '.') = (if d.neg then ['-'] else []) ++ d.int := by
    unfold str
    rw [takeWhile_append_of_pos (by simpa using hsign)]
    by_cases hfrac : d.frac = [] <;> simp [hfrac]
  have hfrac : (d.str.dropWhile (· ≠ '.')).drop 1 = d.frac := by
    unfold str
    rw [dropWhile_append_of_pos (by simpa using hsign)]
    by_cases hfrac : d.frac = [] <;> simp [hfrac]
  have hwords : wordsOf huge d.int ≠ [] := wordsOf_ne_nil d.int_digits d.int_length d.int_ne_nil huge
  have hpart : partText huge tail d.int = (true, joined ' ' (wordsOf huge d.int)) :=
    partText_eq d.int_digits d.int_length d.int_ne_nil htail
  -- the sign with the first part
  have hfirst : (if ((if d.neg then ['-'] else []) ++ d.int).head? = some '-' then wordMinus ++ [' '] else []) ++
      joined ' ' (wordsOf huge d.int) = joined ' ' ((if d.neg then [wordMinus] else []) ++ wordsOf huge d.int) := by
    cases hneg : d.neg with
    | false => simp [d.int_head]
    | true => simp [joined_cons, spaced_eq ' ' hwords]
  have hrest : (if ((if d.neg then ['-'] else []) ++ d.int).head? = some '-'
      then ((if d.neg then ['-'] else []) ++ d.int).drop 1 else (if d.neg then ['-'] else []) ++ d.int) = d.int := by
    cases hneg : d.neg with
    | false => simp [d.int_head]
    | true => simp
  have hret : ¬ret true ≠ 0 := by decide
  simp only [ntConvertStr, hint, hfrac, hrest, hpart, words, front, back]
  rw [if_neg hret]
  by_cases hnone : d.frac = []
  · rw [if_pos hnone, if_pos hnone, hfirst, append_nil]
  · have hdot := wordsOf_ne_nil d.frac_digits d.frac_length hnone huge
    rw [if_neg hnone, if_neg hnone, partText_eq d.frac_digits d.frac_length hnone htail', if_neg hret, hfirst,
      joined_append ' ' (append_ne_nil_of_right_ne_nil _ hwords), spaced_cons, joined_cons ' ' wordDot,
      spaced_eq ' ' hdot]
    simp

section
variable (d : Decimal)

theorem front_words : ∀ w ∈ d.front huge, (' ' ∉ w ∧ w.length ≤ 11) ∧ w ≠ wordDot := by
  intro w hw
  rcases mem_append.1 hw with hw | hw
  · split at hw
    · rw [mem_singleton.1 hw]
      decide
    · cases hw
  · obtain ⟨hspace, hlen, hdot, -⟩ := wordsOf_words d.int_digits d.int_length d.int_ne_nil huge w hw
    exact ⟨⟨hspace, hlen⟩, hdot⟩

theorem back_words : ∀ w ∈ d.back huge, ' ' ∉ w ∧ w.length ≤ 11 := by
  intro w hw
  unfold back at hw
  split at hw
  · cases hw
  · rename_i hfrac
    rcases mem_cons.1 hw with rfl | hw
    · decide
    · obtain ⟨hspace, hlen, -⟩ := wordsOf_words d.frac_digits d.frac_length hfrac huge w hw
      exact ⟨hspace, hlen⟩

theorem words_words : ∀ w ∈ d.words huge, ' ' ∉ w ∧ w.length ≤ 11 := by
  intro w hw
  rcases mem_append.1 hw with hw | hw
  · exact (d.front_words w hw).1
  · exact d.back_words w hw

theorem words_ne_nil : d.words huge ≠ [] := by
  refine append_ne_nil_of_left_ne_nil (append_ne_nil_of_right_ne_nil _ ?_) _
  exact wordsOf_ne_nil d.int_digits d.int_length d.int_ne_nil huge

theorem length_words_le : (d.words huge).length ≤ 72 := by
  have hint := length_wordsOf_le huge d.int_length
  have hfrac := length_wordsOf_le huge d.frac_length
  have hfront : (d.front huge).length ≤ 36 := by
    unfold front
    split <;> simp <;> omega
  have hback : (d.back huge).length ≤ 36 := by
    unfold back
    split
    · simp
    · rw [length_cons]
      omega
  rw [words, length_append]
  omega

theorem length_joined_words_lt : (joined ' ' (d.words huge)).length < 2048 := by
  have hwords : (d.words huge).length ≤ 72 := d.length_words_le
  have hspaced : (spaced ' ' (d.words huge)).length ≤ (11 + 1) * (d.words huge).length :=
    length_spaced_le ' ' fun w hw => (d.words_words w hw).2
  rw [spaced_eq ' ' d.words_ne_nil, length_cons] at hspaced
  omega

theorem takeWhile_words : (d.words huge).takeWhile (· ≠ wordDot) = d.front huge := by
  have hback : (d.back huge).takeWhile (· ≠ wordDot) = [] := by
    unfold back
    split <;> simp
  have hall : ∀ w ∈ d.front huge, decide (w ≠ wordDot) = true := fun w hw => decide_eq_true (d.front_words w hw).2
  rw [words, takeWhile_append_of_pos hall, hback, append_nil]

end

theorem front_eq (h : d.front huge = d'.front huge) : d.neg = d'.neg ∧ wordsOf huge d.int = wordsOf huge d'.int := by
  have hminus : ∀ (e : Decimal) (ws : List (List Char)), wordsOf huge e.int ≠ wordMinus :: ws := by
    intro e ws heq
    have hmem : wordMinus ∈ wordsOf huge e.int := heq ▸ mem_cons_self
    exact (wordsOf_words e.int_digits e.int_length e.int_ne_nil huge _ hmem).2.2.2 rfl
  unfold front at h
  cases hneg : d.neg <;> cases hneg' : d'.neg <;> simp only [hneg, hneg'] at h
  · exact ⟨rfl, h⟩
  · exact absurd h (hminus d _)
  · exact absurd h.symm (hminus d' _)
  · exact ⟨rfl, (cons_eq_cons.1 h).2⟩

theorem back_eq (h : d.back huge = d'.back huge) :
    (d.frac = [] ↔ d'.frac = []) ∧ key huge d.frac = key huge d'.frac := by
  unfold back at h
  by_cases hfrac : d.frac = []
  · by_cases hfrac' : d'.frac = []
    · rw [hfrac, hfrac']
      exact ⟨Iff.rfl, rfl⟩
    · rw [if_pos hfrac, if_neg hfrac'] at h
      cases h
  · by_cases hfrac' : d'.frac = []
    · rw [if_neg hfrac, if_pos hfrac'] at h
      cases h
    · rw [if_neg hfrac, if_neg hfrac', cons_eq_cons] at h
      refine ⟨iff_of_false hfrac hfrac', ?_⟩
      rw [key_eq d.frac_digits d.frac_length hfrac, key_eq d'.frac_digits d'.frac_length hfrac', h.2]

theorem words_eq_iff : d.words huge = d'.words huge ↔ d.Alike huge d' := by
  constructor
  · intro h
    have hfront : d.front huge = d'.front huge := by rw [← takeWhile_words, h, takeWhile_words]
    have hback : d.back huge = d'.back huge := by
      rwa [words, words, hfront, append_cancel_left_eq] at h
    obtain ⟨hneg, hint⟩ := front_eq hfront
    refine ⟨hneg, ?_, back_eq hback⟩
    rw [key_eq d.int_digits d.int_length d.int_ne_nil, key_eq d'.int_digits d'.int_length d'.int_ne_nil, hint]
  · rintro ⟨hneg, hint, hfrac, hkey⟩
    unfold words front back
    rw [hneg, wordsOf_eq_of_key_eq d.int_digits d.int_ne_nil d'.int_digits d'.int_ne_nil hint]
    by_cases hnone : d.frac = []
    · rw [if_pos hnone, if_pos (hfrac.1 hnone)]
    · rw [if_neg hnone, if_neg (mt hfrac.2 hnone),
        wordsOf_eq_of_key_eq d.frac_digits hnone d'.frac_digits (mt hfrac.2 hnone) hkey]

theorem eq_of_map_digitVal_eq (hs : Digits s) (hs' : Digits s') (h : s.map digitVal = s'.map digitVal) : s = s' := by
  induction s generalizing s' with
  | nil => exact (map_eq_nil_iff.1 h.symm).symm
  | cons c s ih =>
    cases s' with
    | nil => cases h
    | cons c' s' =>
      rw [map_cons, map_cons, cons_eq_cons] at h
      obtain ⟨hc, hs⟩ := forall_mem_cons.1 hs
      obtain ⟨hc', hs'⟩ := forall_mem_cons.1 hs'
      rw [eq_of_digitVal_eq hc hc' h.1, ih hs hs' h.2]

theorem eq_of_partVal_eq (hs : Digits s) (hs' : Digits s') (hhead : s.head? ≠ some '0')
    (hhead' : s'.head? ≠ some '0') (h : partVal s = partVal s') : s = s' := by
  have hlt : ∀ u, Digits u → ∀ x ∈ u.map digitVal, x < 10 := by
    intro u hu x hx
    obtain ⟨c, hc, rfl⟩ := mem_map.1 hx
    exact digitVal_lt (hu c hc)
  have hzero : ∀ u, Digits u → u.head? ≠ some '0' → (u.map digitVal).head? ≠ some 0 := by
    intro u hu hhead
    cases u with
    | nil => simp
    | cons c u => simpa [digitVal_eq_zero (hu c mem_cons_self)] using hhead
  exact eq_of_map_digitVal_eq hs hs'
    (eq_of_value_eq (by omega) (hlt s hs) (hlt s' hs') (hzero s hs hhead) (hzero s' hs' hhead') h)

theorem int_eq (h : partVal d.int = partVal d'.int) : d.int = d'.int := by
  have hnonzero : ∀ e : Decimal, e.int.head? ≠ some '0' → partVal e.int ≠ 0 := by
    intro e hhead hzero
    exact e.int_ne_nil (eq_of_partVal_eq e.int_digits (forall_mem_nil _) hhead (by simp) hzero)
  rcases d.int_zero with hd | hd <;> rcases d'.int_zero with hd' | hd'
  · rw [hd, hd']
  · rw [hd] at h
    exact absurd h.symm (hnonzero d' hd')
  · rw [hd'] at h
    exact absurd h (hnonzero d hd)
  · exact eq_of_partVal_eq d.int_digits d'.int_digits hd hd' h

theorem key_fst (h : atoi huge part = 0 → partVal part = 0) : (key huge part).1 = partVal part := by
  unfold key
  split
  · rename_i hatoi
    exact (h hatoi).symm
  · rfl

theorem str_eq_of_alike (hd : d.Plain huge) (hd' : d'.Plain huge) (h : d.Alike huge d') : d.str = d'.str := by
  obtain ⟨hneg, hint, -, hfrac⟩ := h
  have hints : d.int = d'.int := int_eq (by rw [← key_fst hd.2.1, ← key_fst hd'.2.1, hint])
  have hfracs : d.frac = d'.frac := eq_of_partVal_eq d.frac_digits d'.frac_digits hd.1 hd'.1
    (by rw [← key_fst hd.2.2, ← key_fst hd'.2.2, hfrac])
  rw [str, str, hneg, hints, hfracs]

end Decimal

section Main
variable (huge : ℕ → ℤ) {tail₁ tail₂ tail₁' tail₂' : List Char}

theorem fst_of_ret {r : ℕ × List Char} (part : Bool) (text : List Char) (h : r.1 = 1) :
    (if ret part ≠ 0 then (ret part, text) else r).1 = 1 := by
  cases part with
  | false => rfl
  | true => exact h

theorem ntConvertStr_fst (numbuf : List Char) : (ntConvertStr huge tail₁ tail₂ numbuf).1 = 1 := by
  apply fst_of_ret
  by_cases hfloat : (numbuf.dropWhile (· ≠ '.')).drop 1 = []
  · rw [if_pos hfloat]
  · rw [if_neg hfloat]
    exact fst_of_ret _ _ rfl

theorem ntConvertPart_fst (part : List Char) : (ntConvertPart huge tail₁ part).1 = false ↔ 15 < part.length := by
  have hgroups : part.length / 3 + (if part.length % 3 ≠ 0 then 1 else 0) ≥ 6 ↔ 15 < part.length := by
    split <;> omega
  rw [ntConvertPart, ← hgroups]
  by_cases hge : part.length / 3 + (if part.length % 3 ≠ 0 then 1 else 0) ≥ 6
  · rw [if_pos hge]
    exact iff_of_true rfl hge
  · rw [if_neg hge]
    exact iff_of_false (by simp) hge

/-- Two numbers have the same text exactly if they have the same sign, the same values of their parts (as far as `atoi`
sees them), and the first groups of both fractions have only zeros, or of neither. A part with more than 15 digits is
not converted, which is not reported. -/
theorem ntConvertStr_eq_iff (h₁ : Stops tail₁) (h₂ : Stops tail₂) (h₁' : Stops tail₁') (h₂' : Stops tail₂')
    (d d' : Decimal) :
    ((ntConvertStr huge tail₁ tail₂ d.str).2 = (ntConvertStr huge tail₁' tail₂' d'.str).2 ↔ d.Alike huge d') ∧
      (d.Plain huge → d'.Plain huge → d.Alike huge d' → d.str = d'.str) ∧
      (ntConvertStr huge tail₁ tail₂ d.str).2.length < 2048 ∧
      (∀ part, (ntConvertPart huge tail₁ part).1 = false ↔ 15 < part.length) ∧
      ∀ numbuf, (ntConvertStr huge tail₁ tail₂ numbuf).1 = 1 := by
  refine ⟨?_, Decimal.str_eq_of_alike, ?_, ntConvertPart_fst huge, ntConvertStr_fst huge⟩
  · rw [Decimal.ntConvertStr_str h₁ h₂, Decimal.ntConvertStr_str h₁' h₂', ← Decimal.words_eq_iff]
    exact ⟨eq_of_joined_eq ' ' (fun w hw => (d.words_words w hw).1) (fun w hw => (d'.words_words w hw).1)
      d.words_ne_nil d'.words_ne_nil, fun h => by rw [h]⟩
  · rw [Decimal.ntConvertStr_str h₁ h₂]
    exact d.length_joined_words_lt

/-- `-120` with one digit behind the point. -/
def sample (c : Char) (hc : c.isDigit = true) (hzero : c ≠ '0') : Decimal where
  neg := true
  int := "120".toList
  frac := [c]
  int_digits := by decide
  int_ne_nil := by decide
  int_length := by decide
  int_zero := by decide
  frac_digits := List.forall_mem_singleton.2 hc
  frac_length := by simp
  frac_zero := by simpa using hzero

theorem ntConvertStr_eq_iff_sample : (ntConvertStr (fun _ => 1) [] ['x'] (sample '5' rfl (by decide)).str).2 ≠
      (ntConvertStr (fun _ => 1) ['y'] [] (sample '6' rfl (by decide)).str).2 := by
  have hnil : Stops [] := by simp [Stops]
  have hx : Stops ['x'] := by simp [Stops]
  have hy : Stops ['y'] := by simp [Stops]
  have hiff := ntConvertStr_eq_iff (fun _ => 1) hnil hx hy hnil (sample '5' rfl (by decide))
    (sample '6' rfl (by decide))
  refine mt hiff.1.1 fun halike => ?_
  exact absurd halike.2.2.2 (by decide)

/-- `0.5` and `0.05` have one text, and a number with 16 digits has none, but is reported as converted. -/
theorem ntConvertStr_same_text : ntConvertStr (fun _ => 1) [] [] "0.5".toList = (1, "zero dot five".toList) ∧
    ntConvertStr (fun _ => 1) [] [] "0.05".toList = (1, "zero dot five".toList) ∧
    ntConvertPart (fun _ => 1) [] "1234567890123456".toList = (false, []) ∧
    ntConvertStr (fun _ => 1) [] [] "1234567890123456".toList = (1, []) := by
  decide

end Main
end Prj.Ddlus.Num2text
