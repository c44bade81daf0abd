import Mathlib.Data.List.Basic
import Prj.Base.Numeral

/-!
Numbers in English words (`ddlus/console/num2text_en.c`).

A function gives what it appends to the buffer, which is taken to be large enough. `huge` is what `atoi` makes of a
number beyond `int`, and `tail` are the bytes behind the three digits of `numgroup`, which are never set.
-/
namespace Prj.Ddlus.Num2text
open Prj.Base List

section Model
def groupPosText : List (List Char) :=
  [[], ['h', 'u', 'n', 'd', 'r', 'e', 'd', '(', 's', ')'], ['t', 'h', 'o', 'u', 's', 'a', 'n', 'd', '(', 's', ')'],
    ['m', 'i', 'l', 'l', 'i', 'o', 'n', '(', 's', ')'], ['b', 'i', 'l', 'l', 'i', 'o', 'n', '(', 's', ')'],
    ['t', 'r', 'i', 'l', 'l', 'i', 'o', 'n', '(', 's', ')']]

/-- The texts of `decimal_group_text`; the values are 0 to 20, 30 and so on to 90. -/
def decimalGroupText : List (List Char) :=
  [['z', 'e', 'r', 'o'], ['o', 'n', 'e'], ['t', 'w', 'o'], ['t', 'h', 'r', 'e', 'e'], ['f', 'o', 'u', 'r'],
    ['f', 'i', 'v', 'e'], ['s', 'i', 'x'], ['s', 'e', 'v', 'e', 'n'], ['e', 'i', 'g', 'h', 't'],
    ['n', 'i', 'n', 'e'], ['t', 'e', 'n'], ['e', 'l', 'e', 'v', 'e', 'n'], ['t', 'w', 'e', 'l', 'v', 'e'],
    ['t', 'h', 'i', 'r', 't', 'e', 'e', 'n'], ['f', 'o', 'u', 'r', 't', 'e', 'e', 'n'],
    ['f', 'i', 'f', 't', 'e', 'e', 'n'], ['s', 'i', 'x', 't', 'e', 'e', 'n'],
    ['s', 'e', 'v', 'e', 'n', 't', 'e', 'e', 'n'], ['e', 'i', 'g', 'h', 't', 'e', 'e', 'n'],
    ['n', 'i', 'n', 'e', 't', 'e', 'e', 'n'], ['t', 'w', 'e', 'n', 't', 'y'], ['t', 'h', 'i', 'r', 't', 'y'],
    ['f', 'o', 'u', 'r', 't', 'y'], ['f', 'i', 'f', 't', 'y'], ['s', 'i', 'x', 't', 'y'],
    ['s', 'e', 'v', 'e', 'n', 't', 'y'], ['e', 'i', 'g', 'h', 't', 'y'], ['n', 'i', 'n', 'e', 't', 'y']]

def wordAnd : List Char := ['a', 'n', 'd']
def wordMinus : List Char := ['m', 'i', 'n', 'u', 's']
def wordDot : List Char := ['d', 'o', 't']

def decimalText (k : ℕ) : List Char := decimalGroupText.getD k []
def posText (k : ℕ) : List Char := groupPosText.getD k []

def digitVal (c : Char) : ℕ := c.toNat - '0'.toNat

def partVal (s : List Char) : ℕ := value 10 (s.map digitVal)

/-- `nt_decimal_group`; what it calls itself for is at most 9 or a multiple of ten. -/
def ntDecimalGroup (val : ℤ) : Bool × List Char :=
  if val ≤ 0 ∨ val > 99 then (false, [])
  else if val ≤ 20 then (true, decimalText val.toNat)
  else if val % 10 = 0 then (true, decimalText (20 + val.toNat / 10 - 2))
  else (true, decimalText (20 + val.toNat / 10 - 2) ++ [' '] ++ decimalText (val.toNat % 10))

def ntNumgroupHundreds (val : ℤ) : List Char := (ntDecimalGroup val).2 ++ [' '] ++ posText 1

variable (huge : ℕ → ℤ) (tail : List Char)

/-- `atoi`, for a text that does not start with a blank or a sign. -/
def atoi (s : List Char) : ℤ :=
  let val := partVal (s.takeWhile Char.isDigit)
  if val < 2147483648 then val else huge val

def ntConvertNumgroup (numgroup : List Char) : List Char :=
  let nonzero := numgroup.head? ≠ some '0'
  let val := atoi huge (numgroup.drop 1 ++ tail)
  (if nonzero then ntNumgroupHundreds (atoi huge (numgroup.take 1)) else []) ++
    if val ≠ 0 then (if nonzero then [' '] ++ wordAnd ++ [' '] else []) ++ (ntDecimalGroup val).2 else []

/-- What the loop of `nt_convert_part` appends for a group; `pos` is `ngpos - gpos`. -/
def groupText (gpos pos : ℕ) (numgroup : List Char) : List Char :=
  if atoi huge (numgroup ++ tail) ≠ 0 then
    (if gpos ≠ 0 then [' '] ++ wordAnd ++ [' '] else []) ++ ntConvertNumgroup huge tail numgroup ++
      if pos > 1 then [' '] ++ posText pos else []
  else []

/-- The loop of `nt_convert_part` for a part of length `len`, with `n` groups left. -/
def partLoop (len ngpos : ℕ) : ℕ → List Char → List Char
  | 0, _ => []
  | n + 1, needle =>
    let gpos := ngpos - (n + 1)
    let i := len % 3
    if gpos = 0 ∧ i ≠ 0 then
      groupText huge tail gpos (n + 1) (List.replicate (3 - i) '0' ++ needle.take i) ++
        partLoop len ngpos n (needle.drop i)
    else groupText huge tail gpos (n + 1) (needle.take 3) ++ partLoop len ngpos n (needle.drop 3)

def ntConvertPart (part : List Char) : Bool × List Char :=
  let ngpos := part.length / 3 + if part.length % 3 ≠ 0 then 1 else 0
  if ngpos ≥ 6 then (false, []) else (true, partLoop huge tail part.length ngpos ngpos part)

/-- A part, or `zero`. -/
def partText (part : List Char) : Bool × List Char :=
  if atoi huge part = 0 then (true, decimalText 0) else ntConvertPart huge tail part

/-- `ret = nt_convert_part(...) != true_` -/
def ret (part : Bool) : ℕ := if part ≠ true then 1 else 0

/-- `nt_convert_str`, with the value that it returns and the text; `tail'` is behind the groups of the second part. -/
def ntConvertStr (tail' : List Char) (numbuf : List Char) : ℕ × List Char :=
  let intPart := numbuf.takeWhile (· ≠ '.')
  let floatPart := (numbuf.dropWhile (· ≠ '.')).drop 1
  let buf := if intPart.head? = some '-' then wordMinus ++ [' '] else []
  let intPart := if intPart.head? = some '-' then intPart.drop 1 else intPart
  let int := partText huge tail intPart
  if ret int.1 ≠ 0 then (ret int.1, buf ++ int.2)
  else if floatPart = [] then (1, buf ++ int.2)
  else
    let float := partText huge tail' floatPart
    let buf := buf ++ int.2 ++ [' '] ++ (wordDot ++ [' ']) ++ float.2
    if ret float.1 ≠ 0 then (ret float.1, buf) else (1, buf)

end Model

/-! The text of a part as words, from the values of its groups. -/
section Words
def decimalWords (n : ℕ) : List (List Char) :=
  if n ≤ 20 then [decimalText n]
  else if n % 10 = 0 then [decimalText (20 + n / 10 - 2)]
  else [decimalText (20 + n / 10 - 2), decimalText (n % 10)]

def groupWords (v : ℕ) : List (List Char) :=
  (if v / 100 = 0 then [] else [decimalText (v / 100), posText 1]) ++
    if v % 100 = 0 then [] else (if v / 100 = 0 then [] else [wordAnd]) ++ decimalWords (v % 100)

def scaleWords (pos : ℕ) : List (List Char) := if pos > 1 then [posText pos] else []

def restWords : List ℕ → List (List Char)
  | [] => []
  | g :: gs => (if g = 0 then [] else wordAnd :: (groupWords g ++ scaleWords (gs.length + 1))) ++ restWords gs

/-- A first group without a value leaves the blank before the next `and`. -/
def partWords : List ℕ → List (List Char)
  | [] => []
  | g :: gs => (if g = 0 then [[]] else groupWords g ++ scaleWords (gs.length + 1)) ++ restWords gs

def groupVals (part : List Char) : List ℕ :=
  let i := part.length % 3
  (if i = 0 then [] else [partVal (part.take i)]) ++ (chunks 3 (part.length / 3) (part.drop i)).map partVal

variable {huge : ℕ → ℤ} {tail part : List Char} {a b c : Char} {s : List Char}

def Digits (s : List Char) : Prop := ∀ c ∈ s, c.isDigit = true

instance : DecidablePred Digits := fun s => decidable_of_iff (s.all Char.isDigit = true) List.all_eq_true

def Stops (tail : List Char) : Prop := ∀ c ∈ tail.head?, c.isDigit = false

theorem toNat_of_isDigit (h : c.isDigit = true) : 48 ≤ c.toNat ∧ c.toNat ≤ 57 := by
  simp only [Char.isDigit, Bool.and_eq_true, decide_eq_true_eq] at h
  exact ⟨UInt32.le_iff_toNat_le.1 h.1, UInt32.le_iff_toNat_le.1 h.2⟩

theorem digitVal_lt (h : c.isDigit = true) : digitVal c < 10 := by
  have hrange := toNat_of_isDigit h
  have hzero : '0'.toNat = 48 := rfl
  unfold digitVal
  omega

theorem eq_of_digitVal_eq (ha : a.isDigit = true) (hb : b.isDigit = true) (h : digitVal a = digitVal b) : a = b := by
  have hrange := toNat_of_isDigit ha
  have hrange' := toNat_of_isDigit hb
  have hzero : '0'.toNat = 48 := rfl
  unfold digitVal at h
  exact Char.ext (UInt32.toNat_inj.1 (show a.toNat = b.toNat by omega))

theorem digitVal_eq_zero (h : c.isDigit = true) : digitVal c = 0 ↔ c = '0' :=
  ⟨fun hzero => eq_of_digitVal_eq h rfl hzero, fun heq => heq ▸ rfl⟩

theorem atoi_append (htail : Stops tail) (hs : Digits s) (hval : partVal s < 2147483648) :
    atoi huge (s ++ tail) = partVal s := by
  have htake : (s ++ tail).takeWhile Char.isDigit = s := by
    rw [takeWhile_append_of_pos hs]
    cases tail with
    | nil => simp
    | cons c tail => rw [takeWhile_cons_of_neg (by simp [htail c rfl]), append_nil]
  rw [atoi, htake]
  exact if_pos hval

theorem atoi_eq (hs : Digits s) (hval : partVal s < 2147483648) : atoi huge s = partVal s := by
  have happend : atoi huge (s ++ []) = partVal s := atoi_append (fun c hc => by cases hc) hs hval
  rwa [append_nil] at happend

theorem decimalWords_ne_nil (n : ℕ) : decimalWords n ≠ [] := by
  unfold decimalWords
  split
  · simp
  · split <;> simp

theorem ntDecimalGroup_eq {n : ℕ} (hpos : 0 < n) (hlt : n < 100) :
    ntDecimalGroup n = (true, joined ' ' (decimalWords n)) := by
  unfold ntDecimalGroup decimalWords
  rw [if_neg (by omega)]
  by_cases hle : n ≤ 20
  · rw [if_pos (by omega), if_pos hle]
    simp [joined_cons, spaced]
  · rw [if_neg (by omega), if_neg hle]
    by_cases hten : n % 10 = 0
    · rw [if_pos (by omega), if_pos hten]
      simp [joined_cons, spaced]
    · rw [if_neg (by omega), if_neg hten]
      simp [joined_cons, spaced]

theorem partVal_three (a b c : Char) : partVal [a, b, c] = 100 * digitVal a + partVal [b, c] := by
  simp [partVal, value_cons]
  omega

theorem partVal_lt (h : Digits part) : partVal part < 10 ^ part.length := by
  have hdigits : ∀ d ∈ part.map digitVal, d < 10 := by
    intro d hd
    obtain ⟨c, hc, rfl⟩ := mem_map.1 hd
    exact digitVal_lt (h c hc)
  rw [← length_map digitVal]
  exact value_lt (by omega) hdigits

theorem spaced_and {ws : List (List Char)} (h : ws ≠ []) :
    spaced ' ' (wordAnd :: ws) = [' '] ++ wordAnd ++ [' '] ++ joined ' ' ws := by
  rw [spaced_cons, joined_cons, spaced_eq ' ' h]
  simp

theorem ntConvertNumgroup_eq (htail : Stops tail) (h : Digits [a, b, c]) :
    ntConvertNumgroup huge tail [a, b, c] = joined ' ' (groupWords (partVal [a, b, c])) := by
  have ha : a.isDigit = true := h a (by simp)
  have hbc : Digits [b, c] := fun x hx => h x (mem_cons_of_mem a hx)
  have hlt := partVal_lt hbc
  have hv := partVal_three a b c
  have hdiv : partVal [a, b, c] / 100 = digitVal a := by
    simp only [length_cons, length_nil] at hlt
    omega
  have hmod : partVal [a, b, c] % 100 = partVal [b, c] := by
    omega
  have hval : atoi huge ([b, c] ++ tail) = partVal [b, c] := atoi_append htail hbc (by omega)
  have hhead : [a, b, c].head? ≠ some '0' ↔ digitVal a ≠ 0 := by
    rw [head?_cons, Ne, Option.some_inj, ← digitVal_eq_zero ha]
  have hhundreds : digitVal a ≠ 0 →
      ntNumgroupHundreds (atoi huge [a]) = joined ' ' [decimalText (digitVal a), posText 1] := by
    intro hne
    have hdigit := digitVal_lt ha
    have hone : partVal [a] = digitVal a := value_singleton _
    have hwords : decimalWords (digitVal a) = [decimalText (digitVal a)] := if_pos (by omega)
    rw [ntNumgroupHundreds, atoi_eq (fun x hx => h x (by simp_all)) (by omega), hone,
      ntDecimalGroup_eq (Nat.pos_of_ne_zero hne) (by omega), hwords]
    simp [joined_cons, spaced]
  unfold ntConvertNumgroup groupWords
  simp only [drop_succ_cons, drop_zero, take_succ_cons, take_zero, hval, hdiv, hmod, hhead]
  by_cases hzero : digitVal a = 0
  · by_cases hrest : partVal [b, c] = 0
    · simp [hzero, hrest]
      rfl
    · simp [hzero, hrest, ntDecimalGroup_eq (Nat.pos_of_ne_zero hrest) hlt]
  · by_cases hrest : partVal [b, c] = 0
    · simp [hzero, hrest, hhundreds]
    · simp only [hzero, hrest, ne_eq, not_false_eq_true, if_true, if_false, hhundreds, Nat.cast_eq_zero,
        ntDecimalGroup_eq (Nat.pos_of_ne_zero hrest) hlt]
      rw [joined_append ' ' (cons_ne_nil _ _)]
      exact congrArg _ (spaced_and (decimalWords_ne_nil _)).symm

theorem groupWords_ne_nil {v : ℕ} (h : v ≠ 0) : groupWords v ≠ [] := by
  unfold groupWords
  by_cases hdiv : v / 100 = 0
  · have hmod : v % 100 ≠ 0 := by omega
    simp [hdiv, hmod, decimalWords_ne_nil]
  · simp [hdiv]

theorem groupText_eq (htail : Stops tail) (hs : Digits s) (hlen : s.length = 3) (gpos pos : ℕ) :
    groupText huge tail gpos pos s = if partVal s = 0 then []
      else if gpos = 0 then joined ' ' (groupWords (partVal s) ++ scaleWords pos)
      else spaced ' ' (wordAnd :: (groupWords (partVal s) ++ scaleWords pos)) := by
  obtain ⟨a, b, c, rfl⟩ := length_eq_three.1 hlen
  have hlt := partVal_lt hs
  rw [groupText, atoi_append htail hs (by simp only [length_cons, length_nil] at hlt; omega)]
  by_cases hzero : partVal [a, b, c] = 0
  · simp [hzero]
  · have hwords := groupWords_ne_nil hzero
    have hscale : (if pos > 1 then [' '] ++ posText pos else []) = spaced ' ' (scaleWords pos) := by
      unfold scaleWords
      split <;> simp [spaced]
    rw [if_pos (by simpa using hzero), if_neg hzero, ntConvertNumgroup_eq htail hs, hscale]
    by_cases hgpos : gpos = 0
    · rw [if_neg (not_not.2 hgpos), if_pos hgpos, joined_append ' ' hwords, nil_append]
    · rw [if_pos hgpos, if_neg hgpos, spaced_and (by simp [hwords]), joined_append ' ' hwords, append_assoc]

theorem partLoop_rest (htail : Stops tail) (len : ℕ) {ngpos n : ℕ} (hs : Digits s)
    (hlen : s.length = 3 * n) (hlt : n < ngpos) :
    partLoop huge tail len ngpos n s = spaced ' ' (restWords ((chunks 3 n s).map partVal)) := by
  induction n generalizing s with
  | zero => rfl
  | succ n ih =>
    have htake : (s.take 3).length = 3 := by
      rw [length_take]
      omega
    have hrest := ih (s := s.drop 3) (fun c hc => hs c (mem_of_mem_drop hc)) (by rw [length_drop]; omega) (by omega)
    rw [partLoop, if_neg (by omega), groupText_eq htail (fun c hc => hs c (mem_of_mem_take hc)) htake, hrest,
      chunks, map_cons, restWords, spaced_append, if_neg (show ngpos - (n + 1) ≠ 0 by omega), length_map,
      length_chunks]
    by_cases hzero : partVal (s.take 3) = 0
    · rw [if_pos hzero, if_pos hzero]
      rfl
    · rw [if_neg hzero, if_neg hzero]

theorem partVal_replicate (k : ℕ) (s : List Char) : partVal (List.replicate k '0' ++ s) = partVal s := by
  induction k with
  | zero => rfl
  | succ k ih =>
    have hzero : digitVal '0' = 0 := rfl
    rw [replicate_succ, cons_append, partVal, map_cons, value_cons, hzero, Nat.zero_mul, Nat.zero_add]
    exact ih

theorem joined_partWords (g : ℕ) (gs : List ℕ) : joined ' ' (partWords (g :: gs)) =
    (if g = 0 then [] else joined ' ' (groupWords g ++ scaleWords (gs.length + 1))) ++ spaced ' ' (restWords gs) := by
  rw [partWords]
  split
  · exact joined_cons ' ' []
  · rename_i hg
    exact joined_append ' ' (by simp [groupWords_ne_nil hg])

theorem ntConvertPart_eq (htail : Stops tail) (hs : Digits part) (hlen : part.length ≤ 15) (hne : part ≠ []) :
    ntConvertPart huge tail part = (true, joined ' ' (partWords (groupVals part))) := by
  have hpos := length_pos_iff.2 hne
  have hdrop : ∀ k, Digits (part.drop k) := fun k c hc => hs c (mem_of_mem_drop hc)
  by_cases hmod : part.length % 3 = 0
  · obtain ⟨m, hm⟩ : ∃ m, part.length / 3 = m + 1 := ⟨part.length / 3 - 1, by omega⟩
    have htake : (part.take 3).length = 3 := by
      rw [length_take]
      omega
    have hvals : groupVals part = partVal (part.take 3) :: (chunks 3 m (part.drop 3)).map partVal := by
      simp [groupVals, hmod, hm, chunks]
    rw [ntConvertPart, if_neg (not_not.2 hmod), hm, if_neg (by omega), partLoop, if_neg (by omega),
      Nat.sub_self, groupText_eq htail (fun c hc => hs c (mem_of_mem_take hc)) htake, if_pos (rfl : 0 = 0),
      partLoop_rest htail _ (hdrop 3) (by rw [length_drop]; omega) (by omega), hvals, joined_partWords,
      length_map, length_chunks]
  · have hfirst : Digits (List.replicate (3 - part.length % 3) '0' ++ part.take (part.length % 3)) := by
      intro c hc
      rcases mem_append.1 hc with hc | hc
      · rw [eq_of_mem_replicate hc]
        rfl
      · exact hs c (mem_of_mem_take hc)
    have htake : (List.replicate (3 - part.length % 3) '0' ++ part.take (part.length % 3)).length = 3 := by
      rw [length_append, length_replicate, length_take]
      omega
    have hvals : groupVals part = partVal (part.take (part.length % 3)) ::
        (chunks 3 (part.length / 3) (part.drop (part.length % 3))).map partVal := by
      simp [groupVals, hmod]
    rw [ntConvertPart, if_pos hmod, if_neg (by omega), partLoop, if_pos ⟨Nat.sub_self _, hmod⟩, Nat.sub_self,
      groupText_eq htail hfirst htake, if_pos (rfl : 0 = 0), partVal_replicate,
      partLoop_rest htail _ (hdrop _) (by rw [length_drop]; omega) (by omega), hvals, joined_partWords,
      length_map, length_chunks]

theorem value_groupVals (part : List Char) : value 1000 (groupVals part) = partVal part := by
  have hfirst : value 1000 (if part.length % 3 = 0 then [] else [partVal (part.take (part.length % 3))]) =
      value 10 ((part.take (part.length % 3)).map digitVal) := by
    split
    · rename_i hmod
      rw [hmod]
      rfl
    · exact value_singleton _
  have hrest : value 1000 ((chunks 3 (part.length / 3) (part.drop (part.length % 3))).map partVal) =
      value 10 ((part.drop (part.length % 3)).map digitVal) := by
    have hlen : ((part.drop (part.length % 3)).map digitVal).length = 3 * (part.length / 3) := by
      rw [length_map, length_drop]
      omega
    rw [← value_chunks hlen, ← map_chunks, map_map]
    rfl
  have hpow : (1000 : ℕ) ^ (part.length / 3) = 10 ^ ((part.drop (part.length % 3)).map digitVal).length := by
    rw [length_map, length_drop, show part.length - part.length % 3 = 3 * (part.length / 3) by omega, pow_mul]
    rfl
  rw [groupVals, value_append, hfirst, hrest, length_map, length_chunks, hpow, ← value_append, ← map_append,
    take_append_drop, partVal]

theorem groupVals_lt (hs : Digits part) : ∀ g ∈ groupVals part, g < 1000 := by
  have hlt : ∀ s : List Char, s ⊆ part → s.length ≤ 3 → partVal s < 1000 := by
    intro s hsub hlen
    calc partVal s < 10 ^ s.length := partVal_lt fun c hc => hs c (hsub hc)
      _ ≤ 10 ^ 3 := Nat.pow_le_pow_right (by omega) hlen
  intro g hg
  rcases mem_append.1 hg with hg | hg
  · split at hg
    · cases hg
    · rw [mem_singleton.1 hg]
      exact hlt _ (take_subset ..) (by rw [length_take]; omega)
  · obtain ⟨s, hs', rfl⟩ := mem_map.1 hg
    obtain ⟨hlen, hsub⟩ := length_of_mem_chunks hs'
    exact hlt s (List.Subset.trans hsub (drop_subset ..)) hlen

theorem length_groupVals (hlen : part.length ≤ 15) : (groupVals part).length ≤ 5 := by
  unfold groupVals
  rw [length_append, length_map, length_chunks]
  split
  · rw [length_nil]
    omega
  · rw [length_singleton]
    omega

end Words
end Prj.Ddlus.Num2text
