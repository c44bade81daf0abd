import Mathlib.Data.List.GetD
import Mathlib.Data.Nat.Digits.Lemmas

/-!
Numbers in base two (`print_as_bin` in `ddlus/console/format.c`, `isbin` and `bin2dec` in `ddlus/console/analyze.c`).

`inum_t` has 64 bits and `int` has 32. `wild` is what `1 << i` gives where it is not defined.
-/
namespace Prj.Ddlus.Binary
open List

section Model
variable (wild : ℕ → BitVec 32)

def bitChar (b : Bool) : Char := if b then '1' else '0'

/-- The buffer of `print_as_bin` before it is trimmed, up to the terminator. -/
def bitBuf (val : BitVec 64) : List Char := '0' :: 'b' :: (List.range 64).map fun i => bitChar (val.getLsbD i)

/-- `for(i = 65; i > 2; i--)`, with `i` at its end. -/
def trim (buf : List Char) : ℕ → ℕ
  | 0 => 0
  | i + 1 => if i + 1 ≤ 2 ∨ buf[i + 1]? = some '1' then i + 1 else trim buf i

def printAsBin (val : BitVec 64) : List Char := (bitBuf val).take (trim (bitBuf val) 65 + 1)

def checkcharset (str set : List Char) : Bool := str.all (· ∈ set)

def isbin (str : List Char) : Bool :=
  if str.length < 3 then false
  else if str[0]? ≠ some '0' ∨ str[1]? ≠ some 'b' ∧ str[1]? ≠ some 'B' then false
  else checkcharset (str.drop 2) ['1', '0']

/-- `1 << i` -/
def shiftOne (i : ℕ) : BitVec 32 := if i < 31 then 1#32 <<< i else wild i

/-- `while(*str != 'b')`, over the characters from the last one back, with those before the `b` at its end. Without a
`b` the loop leaves the string. -/
def bin2decLoop : List Char → ℕ → BitVec 64 → Option (BitVec 64 × List Char)
  | [], _, _ => none
  | c :: cs, i, dec =>
    if c = 'b' then some (dec, cs)
    else bin2decLoop cs (i + 1) (if c = '1' then dec ||| (shiftOne wild i).signExtend 64 else dec)

/-- `bin2dec`, with the string that `lltoa` leaves. -/
def bin2dec (str : List Char) : Option (BitVec 64 × List Char) :=
  match bin2decLoop wild str.reverse 0 0 with
  | some (dec, _ :: before) => some (dec, before.reverse ++ (toString dec.toInt).toList)
  | _ => none

end Model

section Print
variable {val : BitVec 64} {buf : List Char}

theorem trim_eq {i m : ℕ} (hm : 2 ≤ m) (hmi : m ≤ i) (hstop : m = 2 ∨ buf[m]? = some '1')
    (hskip : ∀ j, m < j → buf[j]? ≠ some '1') : trim buf i = m := by
  induction i with
  | zero => omega
  | succ i ih =>
    unfold trim
    by_cases heq : m = i + 1
    · subst heq
      rw [if_pos]
      exact hstop.imp_left (fun h => h.le)
    · rw [if_neg, ih (by omega)]
      rw [not_or]
      exact ⟨by omega, hskip _ (by omega)⟩

def printed (n : ℕ) : ℕ := max (Nat.digits 2 n).length 1

theorem getLsbD_eq (val : BitVec 64) (i : ℕ) : val.getLsbD i = decide ((Nat.digits 2 val.toNat).getD i 0 = 1) := by
  rw [Nat.getD_digits _ _ le_rfl, ← Nat.testBit_eq_decide_div_mod_eq, BitVec.testBit_toNat]

theorem bitBuf_getElem? {i : ℕ} (hi : i < 64) : (bitBuf val)[i + 2]? = some (bitChar (val.getLsbD i)) := by
  simp [bitBuf, hi]

theorem bitChar_eq_one {b : Bool} : bitChar b = '1' ↔ b = true := by
  cases b <;> decide

theorem length_digits_le (val : BitVec 64) : (Nat.digits 2 val.toNat).length ≤ 64 := by
  rw [Nat.digits_length_le_iff one_lt_two]
  exact val.isLt

theorem printAsBin_eq (val : BitVec 64) : printAsBin val =
    '0' :: 'b' :: (List.range (printed val.toNat)).map fun i => bitChar (val.getLsbD i) := by
  have hle := length_digits_le val
  have htrim : trim (bitBuf val) 65 = printed val.toNat + 1 := by
    unfold printed
    apply trim_eq (by omega) (by omega)
    · by_cases hzero : val.toNat = 0
      · simp [hzero]
      · have hne := Nat.digits_ne_nil_iff_ne_zero (b := 2).2 hzero
        have hpos := length_pos_iff.2 hne
        have hlast := Nat.getLast_digit_ne_zero 2 hzero
        have hlt := Nat.digits_lt_base one_lt_two (getLast_mem hne)
        rw [max_eq_left hpos, show (Nat.digits 2 val.toNat).length + 1 =
          (Nat.digits 2 val.toNat).length - 1 + 2 by omega,
          bitBuf_getElem? (by omega), Option.some_inj, bitChar_eq_one, getLsbD_eq, decide_eq_true_eq,
          getD_eq_getElem _ _ (by omega), ← getLast_eq_getElem hne]
        omega
    · intro j hj
      obtain ⟨i, rfl⟩ : ∃ i, j = i + 2 := ⟨j - 2, by omega⟩
      by_cases hi : i < 64
      · rw [bitBuf_getElem? hi, Ne, Option.some_inj, bitChar_eq_one, getLsbD_eq, getD_eq_default _ _ (by omega)]
        decide
      · rw [getElem?_eq_none (by simp [bitBuf]; omega)]
        simp
  have hsplit : printed val.toNat ≤ 64 := by
    unfold printed
    omega
  rw [printAsBin, htrim, bitBuf, take_succ_cons, take_succ_cons, ← map_take, take_range, min_eq_left hsplit]

theorem isbin_printAsBin (val : BitVec 64) : isbin (printAsBin val) = true := by
  have hpos : 1 ≤ printed val.toNat := le_max_right ..
  have hset : checkcharset ((List.range (printed val.toNat)).map fun i => bitChar (val.getLsbD i))
      ['1', '0'] = true := by
    simp only [checkcharset, all_map, all_eq_true, Function.comp_apply]
    intro i _
    cases val.getLsbD i <;> decide
  rw [printAsBin_eq]
  unfold isbin
  rw [if_neg (by simp; omega)]
  exact hset

end Print

section Read
variable {wild : ℕ → BitVec 32} {cs rest : List Char} {i : ℕ} {dec : BitVec 64}

theorem bin2decLoop_append (hcs : 'b' ∉ cs) (i : ℕ) (dec : BitVec 64) :
    ∃ dec', bin2decLoop wild (cs ++ rest) i dec = bin2decLoop wild rest (i + cs.length) dec' := by
  induction cs generalizing i dec with
  | nil => exact ⟨dec, rfl⟩
  | cons c cs ih =>
    rw [mem_cons, not_or] at hcs
    rw [cons_append, bin2decLoop, if_neg (Ne.symm hcs.1), length_cons, Nat.add_comm cs.length, ← Nat.add_assoc]
    exact ih hcs.2 _ _

theorem bin2decLoop_signExtend {x : BitVec 32} {r : BitVec 64 × List Char}
    (h : bin2decLoop wild cs i (x.signExtend 64) = some r) : ∃ y : BitVec 32, r.1 = y.signExtend 64 := by
  induction cs generalizing i x with
  | nil => cases h
  | cons c cs ih =>
    unfold bin2decLoop at h
    split at h
    · cases h
      exact ⟨x, rfl⟩
    · split at h
      · rw [← BitVec.signExtend_or] at h
        exact ih h
      · exact ih h

theorem signExtend_shiftOne (hi : i < 31) : (shiftOne wild i).signExtend 64 = BitVec.ofNat 64 (2 ^ i) := by
  have hlt : 2 ^ i < 2 ^ 31 := Nat.pow_lt_pow_right one_lt_two hi
  have htoNat : (1#32 <<< i).toNat = 2 ^ i := by
    rw [BitVec.toNat_shiftLeft, Nat.shiftLeft_eq, BitVec.toNat_ofNat, Nat.one_mod_two_pow (by decide), one_mul,
      Nat.mod_eq_of_lt (hlt.trans (by decide))]
  have hmsb : (1#32 <<< i).msb = false := by
    rw [BitVec.msb_eq_decide, htoNat]
    simpa using hlt
  rw [shiftOne, if_pos hi, BitVec.signExtend_eq_setWidth_of_msb_false hmsb]
  apply BitVec.eq_of_toNat_eq
  rw [BitVec.toNat_setWidth, htoNat, BitVec.toNat_ofNat]

theorem bin2decLoop_bits (bs : List Bool) (hi : i + bs.length ≤ 31) (hdec : dec.toNat < 2 ^ i) :
    bin2decLoop wild (bs.map bitChar ++ 'b' :: rest) i dec =
      some (BitVec.ofNat 64 (dec.toNat + 2 ^ i * Nat.ofDigits 2 (bs.map Bool.toNat)), rest) := by
  induction bs generalizing i dec with
  | nil => simp [bin2decLoop]
  | cons b bs ih =>
    rw [length_cons] at hi
    have hpow : 2 ^ i < 2 ^ 31 := Nat.pow_lt_pow_right one_lt_two (by omega)
    rw [map_cons, cons_append, bin2decLoop, if_neg (by cases b <;> decide), map_cons, Nat.ofDigits_cons]
    cases b with
    | false =>
      rw [if_neg (by decide), ih (by omega) (by omega), pow_succ]
      simp [mul_assoc]
    | true =>
      have hor : (dec ||| (shiftOne wild i).signExtend 64).toNat = dec.toNat + 2 ^ i := by
        rw [signExtend_shiftOne (by omega), BitVec.toNat_or, BitVec.toNat_ofNat,
          Nat.mod_eq_of_lt (hpow.trans (by decide)), Nat.or_comm, Nat.add_comm]
        simpa using (Nat.two_pow_add_eq_or_of_lt hdec 1).symm
      rw [if_pos (by decide), ih (by omega) (by omega), hor, pow_succ]
      simp [mul_add, mul_assoc, add_assoc]

end Read

section RoundTrip
variable {wild : ℕ → BitVec 32} {val : BitVec 64} {s : List Char}

theorem map_toNat_bits (val : BitVec 64) :
    ((List.range (Nat.digits 2 val.toNat).length).map val.getLsbD).map Bool.toNat = Nat.digits 2 val.toNat := by
  apply ext_getElem (by simp)
  intro i hi hi'
  have hlt := Nat.digits_lt_base one_lt_two (getElem_mem hi')
  simp only [getElem_map, getElem_range, getLsbD_eq, getD_eq_getElem _ _ hi']
  interval_cases (Nat.digits 2 val.toNat)[i] <;> rfl

theorem ofDigits_reverse_eq_iff (n : ℕ) :
    Nat.ofDigits 2 (Nat.digits 2 n).reverse = n ↔ (Nat.digits 2 n).reverse = Nat.digits 2 n := by
  have hdigits : ∀ d ∈ Nat.digits 2 n, d < 2 := fun d hd => Nat.digits_lt_base one_lt_two hd
  constructor
  · intro h
    apply Nat.ofDigits_inj_of_len_eq one_lt_two (length_reverse ..) _ hdigits
    · rw [h, Nat.ofDigits_digits]
    · exact fun d hd => hdigits d (mem_reverse.1 hd)
  · intro h
    rw [h, Nat.ofDigits_digits]

theorem bin2dec_printAsBin_of_lt (wild : ℕ → BitVec 32) (hval : val.toNat < 2 ^ 31) :
    ∃ str, bin2dec wild (printAsBin val) =
    some (BitVec.ofNat 64 (Nat.ofDigits 2 (Nat.digits 2 val.toNat).reverse), str) := by
  have hlength : (Nat.digits 2 val.toNat).length ≤ 31 := (Nat.digits_length_le_iff one_lt_two _).2 hval
  have hbits : Nat.ofDigits 2 (((List.range (printed val.toNat)).map val.getLsbD).reverse.map Bool.toNat) =
      Nat.ofDigits 2 (Nat.digits 2 val.toNat).reverse := by
    by_cases hzero : val.toNat = 0
    · obtain rfl : val = 0 := BitVec.eq_of_toNat_eq hzero
      simp [printed]
    · have hdigits : printed val.toNat = (Nat.digits 2 val.toNat).length :=
        max_eq_left (length_pos_iff.2 (Nat.digits_ne_nil_iff_ne_zero.2 hzero))
      rw [hdigits, map_reverse, map_toNat_bits]
  have hloop : ∀ bs : List Bool, 0 + bs.length ≤ 31 → bin2decLoop wild (bs.map bitChar ++ ['b', '0']) 0 0 = _ :=
    fun bs hlen => bin2decLoop_bits bs hlen (by decide)
  replace hloop := hloop ((List.range (printed val.toNat)).map val.getLsbD).reverse (by simp [printed]; omega)
  have hstart : (0 : BitVec 64).toNat = 0 := rfl
  rw [hbits, pow_zero, one_mul, hstart, zero_add] at hloop
  have hreverse : (printAsBin val).reverse =
      ((List.range (printed val.toNat)).map val.getLsbD).reverse.map bitChar ++ ['b', '0'] := by
    rw [printAsBin_eq, reverse_cons, reverse_cons, map_reverse, map_map, append_assoc]
    rfl
  unfold bin2dec
  rw [hreverse, hloop]
  exact ⟨_, rfl⟩

theorem not_bin2dec_of_le (hsign : 0 ≤ val.toInt) (hval : 2 ^ 31 ≤ val.toNat) (s str : List Char) :
    bin2dec wild s ≠ some (val, str) := by
  intro h
  unfold bin2dec at h
  split at h
  · next dec c before hloop =>
    obtain ⟨y, hy⟩ := bin2decLoop_signExtend (x := 0) hloop
    obtain rfl : dec = val := congrArg Prod.fst (Option.some.inj h)
    have hint : dec.toInt = y.toInt := by
      rw [show dec = y.signExtend 64 from hy, BitVec.toInt_signExtend_of_le (by decide)]
    have hlt := BitVec.toInt_lt (x := y)
    have hcond := BitVec.toInt_eq_toNat_cond dec
    split at hcond <;> omega
  · cases h

theorem isbin_cases (hs : isbin s = true) : ∃ c ds, s = '0' :: c :: ds ∧ (c = 'b' ∨ c = 'B') ∧ 'b' ∉ ds := by
  unfold isbin at hs
  split_ifs at hs with hlength hmark
  match s with
  | c0 :: c :: ds =>
    simp only [getElem?_cons_zero, getElem?_cons_succ, ne_eq, Option.some_inj, not_or, not_and, not_not] at hmark
    refine ⟨c, ds, by rw [hmark.1], ?_, ?_⟩
    · by_cases hc : c = 'b'
      · exact .inl hc
      · exact .inr (hmark.2 hc)
    · intro hmem
      have hall : ∀ c ∈ ds, c = '1' ∨ c = '0' := by simpa [checkcharset] using hs
      rcases hall _ hmem with h | h
      all_goals exact absurd h (by decide)
  | [_] | [] => simp at hlength

theorem bin2dec_isSome_iff (hs : isbin s = true) : (bin2dec wild s).isSome = true ↔ s[1]? = some 'b' := by
  obtain ⟨c, ds, rfl, hc, hds⟩ := isbin_cases hs
  have hreverse : ('0' :: c :: ds).reverse = ds.reverse ++ [c, '0'] := by simp
  unfold bin2dec
  rw [hreverse]
  obtain ⟨dec, hloop⟩ : ∃ dec, bin2decLoop wild (ds.reverse ++ [c, '0']) 0 0 = bin2decLoop wild [c, '0'] _ dec :=
    bin2decLoop_append (mt mem_reverse.1 hds) 0 0
  rw [hloop]
  rcases hc with rfl | rfl
  all_goals simp [bin2decLoop]

/-- The string of a number is always accepted. It is read back as the number if and only if that is below `2 ^ 31` and
its digits are the same in both directions. -/
theorem bin2dec_printAsBin_iff (wild : ℕ → BitVec 32) :
    (∀ val : BitVec 64, 0 ≤ val.toInt → isbin (printAsBin val) = true ∧
      ((∃ str, bin2dec wild (printAsBin val) = some (val, str)) ↔
        val.toNat < 2 ^ 31 ∧ (Nat.digits 2 val.toNat).reverse = Nat.digits 2 val.toNat)) ∧
    ∀ s, isbin s = true → ((bin2dec wild s).isSome = true ↔ s[1]? = some 'b') := by
  refine ⟨fun val hsign => ⟨isbin_printAsBin val, ?_⟩, fun s => bin2dec_isSome_iff⟩
  by_cases hval : val.toNat < 2 ^ 31
  · obtain ⟨str, hrun⟩ := bin2dec_printAsBin_of_lt wild hval
    have hlt : Nat.ofDigits 2 (Nat.digits 2 val.toNat).reverse < 2 ^ 64 := by
      apply (Nat.ofDigits_lt_base_pow_length one_lt_two _).trans_le
      · rw [length_reverse]
        exact Nat.pow_le_pow_right two_pos (length_digits_le val)
      · exact fun d hd => Nat.digits_lt_base one_lt_two (mem_reverse.1 hd)
    rw [and_iff_right hval, ← ofDigits_reverse_eq_iff, hrun]
    constructor
    · rintro ⟨str', heq⟩
      have hfst := congrArg (fun r => r.1.toNat) (Option.some.inj heq)
      rwa [BitVec.toNat_ofNat, Nat.mod_eq_of_lt hlt] at hfst
    · intro heq
      refine ⟨str, ?_⟩
      rw [heq, BitVec.ofNat_toNat, BitVec.setWidth_eq]
  · refine iff_of_false ?_ (fun h => hval h.1)
    rintro ⟨str, h⟩
    exact not_bin2dec_of_le hsign (not_lt.1 hval) _ _ h

/-- 2 is printed as `0b01`, which is read as 1. `0B1` is accepted and the search for its mark leaves the string. -/
theorem bin2dec_two : isbin (printAsBin 2) = true ∧ printAsBin 2 = ['0', 'b', '0', '1'] ∧
    (bin2dec (fun _ => 0) (printAsBin 2)).map Prod.fst = some 1 ∧ isbin ['0', 'B', '1'] = true ∧
    bin2dec (fun _ => 0) ['0', 'B', '1'] = none := by
  decide

end RoundTrip
end Prj.Ddlus.Binary
