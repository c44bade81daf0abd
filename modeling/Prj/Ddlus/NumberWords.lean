import Prj.Ddlus.Num2text

/-!
What the words of a part of a number tell about it.

The value of the part can be read off its words. Zeros at the start are lost, apart from whether the first group has
only zeros.
-/
namespace Prj.Ddlus.Num2text
open Prj.Base List

section Read
/-- The value of `decimal_group_text[k]`. -/
def decimalVal (k : ℕ) : ℕ := if k ≤ 20 then k else (k - 18) * 10

/-- Reads a word: what is read of the groups before, and of this one. -/
def readWord (st : ℕ × ℕ) (w : List Char) : ℕ × ℕ :=
  if w ∈ decimalGroupText then (st.1, st.2 + decimalVal (decimalGroupText.idxOf w))
  else if w = posText 1 then (st.1, st.2 * 100)
  else if w ∈ groupPosText.drop 2 then (st.1 + st.2 * 1000 ^ (groupPosText.idxOf w - 1), 0)
  else st

/-- The value of words, behind `t` for the groups before. -/
def wordsVal (t : ℕ) (ws : List (List Char)) : ℕ := (ws.foldl readWord (t, 0)).1 + (ws.foldl readWord (t, 0)).2

variable (st : ℕ × ℕ)

theorem readWord_decimal {k : ℕ} (hk : k < 28) : readWord st (decimalText k) = (st.1, st.2 + decimalVal k) := by
  have htable : ∀ k < 28, decimalText k ∈ decimalGroupText ∧ decimalGroupText.idxOf (decimalText k) = k := by
    decide
  obtain ⟨hmem, hidx⟩ := htable k hk
  rw [readWord, if_pos hmem, hidx]

theorem readWord_pos {k : ℕ} (hk : 1 < k) (hlt : k < 6) :
    readWord st (posText k) = (st.1 + st.2 * 1000 ^ (k - 1), 0) := by
  have htable : ∀ k < 6, 1 < k → posText k ∉ decimalGroupText ∧ posText k ≠ posText 1 ∧
      posText k ∈ groupPosText.drop 2 ∧ groupPosText.idxOf (posText k) = k := by decide
  obtain ⟨hdecimal, hhundred, hmem, hidx⟩ := htable k hlt hk
  rw [readWord, if_neg hdecimal, if_neg hhundred, if_pos hmem, hidx]

theorem readWord_and : readWord st wordAnd = st := by
  rw [readWord, if_neg (by decide), if_neg (by decide), if_neg (by decide)]

variable {st}

theorem foldl_decimalWords {n : ℕ} (hlt : n < 100) (t c : ℕ) : (decimalWords n).foldl readWord (t, c) = (t, c + n) := by
  unfold decimalWords
  by_cases hle : n ≤ 20
  · rw [if_pos hle, foldl_cons, readWord_decimal _ (by omega), decimalVal, if_pos hle]
    rfl
  · have htens : decimalVal (20 + n / 10 - 2) = n / 10 * 10 := by
      unfold decimalVal
      split <;> omega
    have hunits : decimalVal (n % 10) = n % 10 := if_pos (by omega)
    rw [if_neg hle]
    split
    · rw [foldl_cons, readWord_decimal _ (by omega), foldl_nil]
      exact Prod.ext rfl (by omega)
    · rw [foldl_cons, foldl_cons, readWord_decimal _ (by omega), readWord_decimal _ (by omega), foldl_nil]
      exact Prod.ext rfl (by omega)

theorem foldl_groupWords {v : ℕ} (hlt : v < 1000) (t : ℕ) : (groupWords v).foldl readWord (t, 0) = (t, v) := by
  have hhundreds : (if v / 100 = 0 then [] else [decimalText (v / 100), posText 1]).foldl readWord (t, 0) =
      (t, v / 100 * 100) := by
    split
    · rename_i hzero
      rw [hzero]
      rfl
    · rw [foldl_cons, foldl_cons, readWord_decimal _ (by omega), decimalVal, if_pos (by omega), Nat.zero_add]
      rfl
  have hand : (if v / 100 = 0 then [] else [wordAnd]).foldl readWord (t, v / 100 * 100) = (t, v / 100 * 100) := by
    split
    · rfl
    · exact readWord_and _
  rw [groupWords, foldl_append, hhundreds]
  split
  · exact Prod.ext rfl (by dsimp only [foldl_nil]; omega)
  · rw [foldl_append, hand, foldl_decimalWords (by omega)]
    exact Prod.ext rfl (by omega)

theorem foldl_scaleWords {pos : ℕ} (hpos : 0 < pos) (hlt : pos < 6) (t v : ℕ) :
    (scaleWords pos).foldl readWord (t, v) = if pos = 1 then (t, v) else (t + v * 1000 ^ (pos - 1), 0) := by
  unfold scaleWords
  split
  · rw [if_neg (by omega), foldl_cons, readWord_pos _ (by omega) hlt, foldl_nil]
  · rw [if_pos (by omega), foldl_nil]

theorem wordsVal_group {g : ℕ} {gs : List ℕ} (hg : g < 1000) (hlen : gs.length < 5) (t : ℕ)
    (hrest : ∀ t, wordsVal t (restWords gs) = t + value 1000 gs) :
    wordsVal t (groupWords g ++ scaleWords (gs.length + 1) ++ restWords gs) = t + value 1000 (g :: gs) := by
  have hfold : ((groupWords g ++ scaleWords (gs.length + 1)).foldl readWord (t, 0)) =
      if gs.length + 1 = 1 then (t, g) else (t + g * 1000 ^ gs.length, 0) := by
    rw [foldl_append, foldl_groupWords hg, foldl_scaleWords (by omega) (by omega), Nat.add_sub_cancel]
  unfold wordsVal at *
  rw [foldl_append, hfold, value_cons]
  cases gs with
  | nil => simp [restWords]
  | cons g' gs =>
    rw [if_neg (by simp), hrest]
    omega

section
variable {gs : List ℕ} (hgs : ∀ g ∈ gs, g < 1000) (hlen : gs.length ≤ 5)
include hgs hlen

theorem wordsVal_restWords (t : ℕ) : wordsVal t (restWords gs) = t + value 1000 gs := by
  induction gs generalizing t with
  | nil => rfl
  | cons g gs ih =>
    have hrest := ih (fun g hg => hgs g (mem_cons_of_mem _ hg)) (by rw [length_cons] at hlen; omega)
    rw [restWords]
    split
    · rename_i hzero
      rw [nil_append, hrest, value_cons, hzero, Nat.zero_mul, Nat.zero_add]
    · exact wordsVal_group (hgs g mem_cons_self) hlen t hrest

theorem wordsVal_partWords : wordsVal 0 (partWords gs) = value 1000 gs := by
  cases gs with
  | nil => rfl
  | cons g gs =>
    have hrest : ∀ t, wordsVal t (restWords gs) = t + value 1000 gs := wordsVal_restWords
      (fun g hg => hgs g (mem_cons_of_mem _ hg)) (by rw [length_cons] at hlen; omega)
    rw [partWords]
    split
    · rename_i hzero
      rw [wordsVal, singleton_append, foldl_cons, value_cons, hzero, Nat.zero_mul]
      exact hrest 0
    · rw [wordsVal_group (hgs g mem_cons_self) hlen 0 hrest, Nat.zero_add]

end
end Read

section Vocabulary
def groupVocabulary : List (List Char) := wordAnd :: (decimalGroupText ++ groupPosText.drop 1)

theorem decimalText_mem {k : ℕ} (hk : k < 28) : decimalText k ∈ groupVocabulary := by
  have htable : ∀ k < 28, decimalText k ∈ groupVocabulary := by decide
  exact htable k hk

theorem posText_mem {k : ℕ} (hpos : 0 < k) (hk : k < 6) : posText k ∈ groupVocabulary := by
  have htable : ∀ k < 6, 0 < k → posText k ∈ groupVocabulary := by decide
  exact htable k hk hpos

theorem decimalWords_subset {n : ℕ} (hlt : n < 100) : decimalWords n ⊆ groupVocabulary := by
  unfold decimalWords
  split
  · simpa using decimalText_mem (by omega)
  · split
    · simpa using decimalText_mem (by omega)
    · simpa using ⟨decimalText_mem (by omega), decimalText_mem (by omega)⟩

theorem groupWords_subset {v : ℕ} (hlt : v < 1000) : groupWords v ⊆ groupVocabulary := by
  have hand : wordAnd ∈ groupVocabulary := mem_cons_self
  have hrest := decimalWords_subset (n := v % 100) (by omega)
  have hhundreds := decimalText_mem (k := v / 100) (by omega)
  have hpos := posText_mem (k := 1) (by omega) (by omega)
  intro w hw
  rcases mem_append.1 hw with hw | hw
  · split at hw
    · cases hw
    · obtain rfl | rfl : w = decimalText (v / 100) ∨ w = posText 1 := by simpa using hw
      · exact hhundreds
      · exact hpos
  · split at hw
    · cases hw
    · rcases mem_append.1 hw with hw | hw
      · split at hw
        · cases hw
        · rwa [mem_singleton.1 hw]
      · exact hrest hw

theorem scaleWords_subset {pos : ℕ} (hlt : pos < 6) : scaleWords pos ⊆ groupVocabulary := by
  unfold scaleWords
  split
  · simpa using posText_mem (by omega) hlt
  · exact nil_subset _

section
variable {gs : List ℕ} (hgs : ∀ g ∈ gs, g < 1000) (hlen : gs.length ≤ 5)
include hgs hlen

theorem restWords_subset : restWords gs ⊆ groupVocabulary := by
  induction gs with
  | nil => exact nil_subset _
  | cons g gs ih =>
    have hrest := ih (fun g hg => hgs g (mem_cons_of_mem _ hg)) (by rw [length_cons] at hlen; omega)
    have hscale : scaleWords (gs.length + 1) ⊆ groupVocabulary := scaleWords_subset (by
      rw [length_cons] at hlen
      omega)
    refine append_subset.2 ⟨?_, hrest⟩
    split
    · exact nil_subset _
    · refine cons_subset.2 ⟨mem_cons_self, append_subset.2 ⟨?_, hscale⟩⟩
      exact groupWords_subset (hgs g mem_cons_self)

theorem partWords_cases (hne : gs ≠ []) : ∃ w ws, partWords gs = w :: ws ∧ ws ⊆ groupVocabulary ∧
      ((gs.head? = some 0 ∧ w = []) ∨ (gs.head? ≠ some 0 ∧ w ∈ groupVocabulary)) := by
  obtain ⟨g, gs, rfl⟩ := exists_cons_of_ne_nil hne
  rw [length_cons] at hlen
  have hrest : restWords gs ⊆ groupVocabulary :=
    restWords_subset (fun g hg => hgs g (mem_cons_of_mem _ hg)) (by omega)
  rw [partWords]
  split
  · rename_i hzero
    exact ⟨[], restWords gs, rfl, hrest, .inl ⟨by rw [head?_cons, hzero], rfl⟩⟩
  · rename_i hg
    obtain ⟨w, ws, hgroup⟩ := exists_cons_of_ne_nil (groupWords_ne_nil hg)
    have hsub := groupWords_subset (hgs g mem_cons_self)
    rw [hgroup] at hsub ⊢
    obtain ⟨hw, hws⟩ := cons_subset.1 hsub
    refine ⟨w, ws ++ scaleWords (gs.length + 1) ++ restWords gs, rfl, ?_, .inr ⟨by simpa using hg, hw⟩⟩
    exact append_subset.2 ⟨append_subset.2 ⟨hws, scaleWords_subset (by omega)⟩, hrest⟩

end

theorem groupVocabulary_words : ∀ w ∈ groupVocabulary, ' ' ∉ w ∧ w ≠ [] ∧ w ≠ wordDot ∧ w ≠ wordMinus := by
  decide

theorem groupVocabulary_length : ∀ w ∈ groupVocabulary, w.length ≤ 11 := by decide

theorem length_groupWords_le (v : ℕ) : (groupWords v).length ≤ 5 := by
  have hdecimal : (decimalWords (v % 100)).length ≤ 2 := by
    unfold decimalWords
    split
    · simp
    · split <;> simp
  unfold groupWords
  by_cases hdiv : v / 100 = 0 <;> by_cases hmod : v % 100 = 0 <;> simp [hdiv, hmod] <;> omega

theorem length_scaleWords_le (pos : ℕ) : (scaleWords pos).length ≤ 1 := by
  unfold scaleWords
  split <;> simp

theorem length_restWords_le (gs : List ℕ) : (restWords gs).length ≤ 7 * gs.length := by
  induction gs with
  | nil => exact Nat.le_refl _
  | cons g gs ih =>
    have hgroup := length_groupWords_le g
    have hscale := length_scaleWords_le (gs.length + 1)
    rw [restWords, length_append, length_cons]
    split
    · rw [length_nil]
      omega
    · rw [length_cons, length_append]
      omega

theorem length_partWords_le (gs : List ℕ) : (partWords gs).length ≤ 7 * gs.length := by
  cases gs with
  | nil => exact Nat.le_refl _
  | cons g gs =>
    have hgroup := length_groupWords_le g
    have hscale := length_scaleWords_le (gs.length + 1)
    have hrest := length_restWords_le gs
    rw [partWords, length_append, length_cons]
    split
    · rw [length_singleton]
      omega
    · rw [length_append]
      omega

theorem restWords_dropWhile (gs : List ℕ) : restWords (gs.dropWhile (· = 0)) = restWords gs := by
  induction gs with
  | nil => rfl
  | cons g gs ih =>
    by_cases hg : g = 0
    · rw [dropWhile_cons_of_pos (by simpa using hg), ih, restWords, if_pos hg, nil_append]
    · rw [dropWhile_cons_of_neg (by simpa using hg)]

theorem partWords_eq {gs : List ℕ} (hgs : ∀ g ∈ gs, g < 1000) (hne : gs ≠ []) :
    partWords gs = if gs.head? = some 0 then [] :: restWords (Nat.digits 1000 (value 1000 gs)).reverse
      else partWords (Nat.digits 1000 (value 1000 gs)).reverse := by
  obtain ⟨g, gs, rfl⟩ := exists_cons_of_ne_nil hne
  rw [← dropWhile_eq_digits (by omega) hgs, head?_cons]
  by_cases hg : g = 0
  · rw [restWords_dropWhile, hg]
    rfl
  · rw [if_neg (by simpa using hg), dropWhile_cons_of_neg (by simpa using hg)]

end Vocabulary

section Part
variable {huge : ℕ → ℤ} {tail part part' : List Char}

def wordsOf (huge : ℕ → ℤ) (part : List Char) : List (List Char) :=
  if atoi huge part = 0 then [decimalText 0] else partWords (groupVals part)

/-- What the text keeps of a part: its value, and whether the first group has only zeros. For `atoi`, a number beyond
`int` may be zero. -/
def key (huge : ℕ → ℤ) (part : List Char) : ℕ × Bool :=
  if atoi huge part = 0 then (0, false) else (partVal part, (groupVals part).head? = some 0)

theorem partVal_ne_zero (h : Digits part) (hne : atoi huge part ≠ 0) : partVal part ≠ 0 := by
  intro hzero
  rw [atoi_eq h (by omega), hzero] at hne
  exact hne rfl

theorem groupVals_ne_nil (hne : part ≠ []) : groupVals part ≠ [] := by
  have hpos := length_pos_iff.2 hne
  intro hnil
  have hlen := congrArg List.length hnil
  simp only [groupVals, length_append, length_map, length_chunks, length_nil] at hlen
  split at hlen
  · omega
  · simp at hlen

theorem length_wordsOf_le (huge : ℕ → ℤ) (hlen : part.length ≤ 15) : (wordsOf huge part).length ≤ 35 := by
  have hgroups := length_groupVals hlen
  have hwords := length_partWords_le (groupVals part)
  unfold wordsOf
  split
  · simp
  · omega

variable (h : Digits part) (hlen : part.length ≤ 15) (hne : part ≠ [])
include h hlen hne

theorem partText_eq (htail : Stops tail) : partText huge tail part = (true, joined ' ' (wordsOf huge part)) := by
  unfold partText wordsOf
  split
  · simp [joined_cons, spaced]
  · exact ntConvertPart_eq htail h hlen hne

theorem wordsOf_cases (huge : ℕ → ℤ) : ∃ w ws, wordsOf huge part = w :: ws ∧ ws ⊆ groupVocabulary ∧
    (((key huge part).2 = true ∧ w = []) ∨ ((key huge part).2 = false ∧ w ∈ groupVocabulary)) := by
  unfold wordsOf key
  split
  · exact ⟨decimalText 0, [], rfl, nil_subset _, .inr ⟨rfl, decimalText_mem (by omega)⟩⟩
  · obtain ⟨w, ws, hwords, hws, hw⟩ := partWords_cases (groupVals_lt h) (length_groupVals hlen) (groupVals_ne_nil hne)
    refine ⟨w, ws, hwords, hws, ?_⟩
    simpa using hw

theorem wordsOf_ne_nil (huge : ℕ → ℤ) : wordsOf huge part ≠ [] := by
  obtain ⟨w, ws, hwords, -⟩ := wordsOf_cases h hlen hne huge
  rw [hwords]
  exact cons_ne_nil w ws

theorem wordsOf_words (huge : ℕ → ℤ) :
    ∀ w ∈ wordsOf huge part, ' ' ∉ w ∧ w.length ≤ 11 ∧ w ≠ wordDot ∧ w ≠ wordMinus := by
  have hvoc : ∀ w ∈ groupVocabulary, ' ' ∉ w ∧ w.length ≤ 11 ∧ w ≠ wordDot ∧ w ≠ wordMinus := fun w hw =>
    ⟨(groupVocabulary_words w hw).1, groupVocabulary_length w hw, (groupVocabulary_words w hw).2.2⟩
  obtain ⟨w, ws, hwords, hws, hfirst⟩ := wordsOf_cases h hlen hne huge
  rw [hwords]
  refine forall_mem_cons.2 ⟨?_, fun v hv => hvoc v (hws hv)⟩
  obtain ⟨-, rfl⟩ | ⟨-, hw⟩ := hfirst
  · decide
  · exact hvoc w hw

theorem key_eq : key huge part = (wordsVal 0 (wordsOf huge part), decide ((wordsOf huge part).head? = some [])) := by
  have hval : (key huge part).1 = wordsVal 0 (wordsOf huge part) := by
    unfold key wordsOf
    split
    · decide
    · rw [wordsVal_partWords (groupVals_lt h) (length_groupVals hlen), value_groupVals]
  have hflag : (key huge part).2 = decide ((wordsOf huge part).head? = some []) := by
    obtain ⟨w, ws, hwords, -, ⟨hkey, rfl⟩ | ⟨hkey, hw⟩⟩ := wordsOf_cases h hlen hne huge
    · rw [hkey, hwords]
      rfl
    · rw [hkey, hwords]
      simpa using (groupVocabulary_words w hw).2.1
  exact Prod.ext hval hflag

omit hlen hne in
theorem key_fst_eq_zero_iff : (key huge part).1 = 0 ↔ atoi huge part = 0 := by
  unfold key
  split
  · simp_all
  · rename_i hatoi
    exact ⟨fun hzero => absurd hzero (partVal_ne_zero h hatoi), fun hzero => absurd hzero hatoi⟩

omit hlen in
theorem wordsOf_eq_of_key_eq (h' : Digits part') (hne' : part' ≠ []) (hkey : key huge part = key huge part') :
    wordsOf huge part = wordsOf huge part' := by
  have hiff : atoi huge part = 0 ↔ atoi huge part' = 0 := by
    rw [← key_fst_eq_zero_iff h, ← key_fst_eq_zero_iff h', hkey]
  unfold wordsOf
  by_cases hatoi : atoi huge part = 0
  · rw [if_pos hatoi, if_pos (hiff.1 hatoi)]
  · unfold key at hkey
    rw [if_neg hatoi, if_neg (mt hiff.2 hatoi), Prod.mk.injEq, decide_eq_decide] at hkey
    rw [if_neg hatoi, if_neg (mt hiff.2 hatoi), partWords_eq (groupVals_lt h) (groupVals_ne_nil hne),
      partWords_eq (groupVals_lt h') (groupVals_ne_nil hne'), value_groupVals, value_groupVals, hkey.1]
    by_cases hflag : (groupVals part).head? = some 0
    · rw [if_pos hflag, if_pos (hkey.2.1 hflag)]
    · rw [if_neg hflag, if_neg (mt hkey.2.2 hflag)]

end Part
end Prj.Ddlus.Num2text
