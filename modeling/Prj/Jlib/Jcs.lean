import Mathlib.Algebra.GroupWithZero.Nat
import Mathlib.Tactic.Common

/-!
The character encoding `jcs` (`jlib/src/jcs.c`): one byte, or two bytes of which the first has its high bit
set.

`wchar_t` is a signed number with 32 bits on Linux and an unsigned one with 16 bits on Windows, here it is an
integer. A result `none` is the return value `(size_t)-1`.
-/
namespace Prj.Jlib
open List Option

structure WStr where
  chars : List ℤ
  no_nul : 0 ∉ chars

def Encodable (c : ℤ) : Prop :=
  1 ≤ c ∧ c ≤ 0x7f ∨ 0x80 ≤ c ∧ c ≤ 0x33fe ∨ 0xfb50 ≤ c ∧ c ≤ 0xfdff ∨ 0xfe70 ≤ c ∧ c ≤ 0xfeff

instance : DecidablePred Encodable := fun _ => inferInstanceAs (Decidable (_ ∨ _))

def Full (maxLen len : ℕ) : Prop := maxLen ≠ 0 ∧ maxLen ≤ len

instance (maxLen len : ℕ) : Decidable (Full maxLen len) := inferInstanceAs (Decidable (_ ∧ _))

/-- The bytes that `wtojcs_len` counts for a character. -/
def charLen (c : ℤ) : Option ℕ :=
  if c < 128 then some 1
  else if 0x7f < c ∧ c < 0x33ff then some 2
  else if 0xfb50 ≤ c ∧ c ≤ 0xfdff then some 2
  else if 0xfe70 ≤ c ∧ c ≤ 0xfeff then some 2
  else none

/-- The loop of `wtojcs_len`. -/
def wtojcsLenLoop (maxLen : ℕ) : ℕ → List ℤ → Option ℕ
  | idst, [] => some idst
  | idst, c :: src =>
    if Full maxLen idst then none
    else (charLen c).bind fun n => wtojcsLenLoop maxLen (idst + n) src

def wtojcsLen (src : WStr) (maxLen : ℕ) : Option ℕ := wtojcsLenLoop maxLen 0 src.chars

/-- The number with 14 bits that stands for a character of two bytes. -/
def pack14 (c : ℤ) : Option ℕ :=
  if 127 < c ∧ c < 0x33ff then some c.toNat
  else if 0xfb50 ≤ c ∧ c ≤ 0xfdff then some (c - 0xc750).toNat
  else if 0xfe70 ≤ c ∧ c ≤ 0xfeff then some (c - 0xc7c0).toNat
  else none

def charBytes (c : ℤ) : Option (List UInt8) :=
  if c < 128 then some [UInt8.ofNat (c % 256).toNat]
  else (pack14 c).map fun tmp => [UInt8.ofNat (tmp / 256) ||| 0x80, UInt8.ofNat tmp]

/-- The loop of `wtojcs`: the return value and the bytes that are written. -/
def wtojcsLoop (maxLen : ℕ) : ℕ → List ℤ → Option ℕ × List UInt8
  | len, [] => (some len, [0])
  | len, c :: src =>
    if Full maxLen len then (none, [])
    else
      match charBytes c with
      | none => (none, [])
      | some bs => ((wtojcsLoop maxLen (len + bs.length) src).1,
          bs ++ (wtojcsLoop maxLen (len + bs.length) src).2)

def wtojcs (src : WStr) (maxLen : ℕ) : Option ℕ × List UInt8 := wtojcsLoop maxLen 0 src.chars

def unpack14 (v : ℕ) : Option ℤ :=
  if 127 ≤ v ∧ v ≤ 0x33ff then some v
  else if 0x3400 ≤ v ∧ v ≤ 0x36af then some (v + 0xc750)
  else if 0x36b0 ≤ v ∧ v ≤ 0x373f then some (v + 0xc7c0)
  else none

/-- What `jcstow` returns and writes, and its source after it: the high bits are cleared in place. -/
structure Decoded where
  ret : Option ℕ
  dst : List ℤ
  src : List UInt8
  deriving DecidableEq, Repr

def Decoded.cons (cs : List ℤ) (bs : List UInt8) (r : Decoded) : Decoded :=
  ⟨r.ret, cs ++ r.dst, bs ++ r.src⟩

/-- The loop of `jcstow`; the result is `none` if it reads behind the buffer. The test `*src + 1 == '\0'`
is on an `int` and never true. -/
def jcstowLoop (maxLen : ℕ) : ℕ → List UInt8 → Option Decoded
  | _, [] => none
  | len, b :: src =>
    if b = 0 then some ⟨some len, [0], b :: src⟩
    else if Full maxLen len then some ⟨none, [], b :: src⟩
    else if b < 128 then (jcstowLoop maxLen (len + 1) src).map (.cons [b.toNat] [b])
    else
      match src with
      | [] => none
      | b' :: src =>
        let v := (b &&& 0x7f).toNat * 256 + b'.toNat
        match unpack14 v with
        | none => some ⟨none, [v], (b &&& 0x7f) :: b' :: src⟩
        | some c => (jcstowLoop maxLen (len + 1) src).map (.cons [c] [b &&& 0x7f, b'])

def jcstow (src : List UInt8) (maxLen : ℕ) : Option Decoded := jcstowLoop maxLen 0 src

def encoded (cs : List ℤ) : List UInt8 := cs.flatMap fun c => (charBytes c).getD []

/-- The bytes of a character after `jcstow`. -/
def charCleared (c : ℤ) : List UInt8 :=
  if c < 128 then [UInt8.ofNat (c % 256).toNat]
  else ((pack14 c).map fun tmp => [UInt8.ofNat (tmp / 256), UInt8.ofNat tmp]).getD []

section Chars
variable {c : ℤ} {t : ℕ}

theorem charLen_eq (c : ℤ) : charLen c = (charBytes c).map List.length := by
  unfold charLen charBytes pack14
  split_ifs <;> rfl

theorem charBytes_eq_none_iff : charBytes c = none ↔ 0 < c ∧ ¬ Encodable c := by
  unfold charBytes pack14 Encodable
  split_ifs <;> simp only [reduceCtorEq, map_some, map_none, false_iff, true_iff] <;> omega

theorem exists_pack14 (hc : Encodable c) (h : ¬ c < 128) :
    ∃ t, pack14 c = some t ∧ t < 0x8000 ∧ unpack14 t = some c := by
  have hranges : 0x80 ≤ c ∧ c ≤ 0x33fe ∨ 0xfb50 ≤ c ∧ c ≤ 0xfdff ∨ 0xfe70 ≤ c ∧ c ≤ 0xfeff := by
    unfold Encodable at hc
    omega
  rcases hranges with hc | hc | hc
  · refine ⟨c.toNat, ?_, by omega, ?_⟩
    · rw [pack14, if_pos (by omega)]
    · rw [unpack14, if_pos (by omega), Int.toNat_of_nonneg (by omega)]
  · refine ⟨(c - 0xc750).toNat, ?_, by omega, ?_⟩
    · rw [pack14, if_neg (by omega), if_pos hc]
    · rw [unpack14, if_neg (by omega), if_pos (by omega), Int.toNat_of_nonneg (by omega), Int.sub_add_cancel]
  · refine ⟨(c - 0xc7c0).toNat, ?_, by omega, ?_⟩
    · rw [pack14, if_neg (by omega), if_neg (by omega), if_pos hc]
    · rw [unpack14, if_neg (by omega), if_neg (by omega), if_pos (by omega),
        Int.toNat_of_nonneg (by omega), Int.sub_add_cancel]

theorem flag_spec : ∀ n < 128, ¬ UInt8.ofNat n ||| 0x80 < 128 ∧ (UInt8.ofNat n ||| 0x80) &&& 0x7f = UInt8.ofNat n := by
  decide +kernel

theorem charBytes_of_lt (h : c < 128) : charBytes c = some [UInt8.ofNat (c % 256).toNat] := if_pos h

theorem charBytes_of_pack14 (h : ¬ c < 128) (ht : pack14 c = some t) :
    charBytes c = some [UInt8.ofNat (t / 256) ||| 0x80, UInt8.ofNat t] := by
  rw [charBytes, if_neg h, ht, map_some]

theorem charBytes_ne_none_of_encodable (hc : Encodable c) : charBytes c ≠ none := by
  rw [ne_eq, charBytes_eq_none_iff]
  exact fun hnone => hnone.2 hc

end Chars

section Loops
variable {c : ℤ} {cs : List ℤ} {bs rest : List UInt8} {maxLen len : ℕ}

theorem not_full (h : maxLen = 0 ∨ len < maxLen) : ¬ Full maxLen len := by
  unfold Full
  omega

theorem jcstowLoop_char (hc : Encodable c) (hfull : ¬ Full maxLen len) (hbs : charBytes c = some bs) :
    jcstowLoop maxLen len (bs ++ rest) = (jcstowLoop maxLen (len + 1) rest).map (.cons [c] (charCleared c)) := by
  by_cases h : c < 128
  · have hpos : 1 ≤ c := by
      unfold Encodable at hc
      omega
    have hnat : (UInt8.ofNat (c % 256).toNat).toNat = c.toNat := by
      rw [UInt8.toNat_ofNat']
      omega
    rw [charBytes_of_lt h] at hbs
    cases hbs
    have hne : UInt8.ofNat (c % 256).toNat ≠ 0 := by
      intro hzero
      rw [hzero] at hnat
      have : (0 : UInt8).toNat = 0 := rfl
      omega
    have hlt : UInt8.ofNat (c % 256).toNat < 128 := by
      rw [UInt8.lt_iff_toNat_lt]
      have : (128 : UInt8).toNat = 128 := rfl
      omega
    rw [singleton_append, jcstowLoop.eq_def]
    simp only [if_neg hne, if_neg hfull, if_pos hlt, hnat, charCleared, if_pos h]
    rw [Int.toNat_of_nonneg (by omega)]
  · obtain ⟨t, ht, hlt, hback⟩ := exists_pack14 hc h
    rw [charBytes_of_pack14 h ht] at hbs
    cases hbs
    obtain ⟨hhigh, hclear⟩ := flag_spec (t / 256) (by omega)
    have hne : UInt8.ofNat (t / 256) ||| 0x80 ≠ 0 := by
      intro hzero
      rw [hzero] at hhigh
      exact hhigh (by decide)
    have hval : (UInt8.ofNat (t / 256)).toNat * 256 + (UInt8.ofNat t).toNat = t := by
      rw [UInt8.toNat_ofNat', UInt8.toNat_ofNat']
      omega
    rw [cons_append, singleton_append, jcstowLoop.eq_def]
    simp only [if_neg hne, if_neg hfull, if_neg hhigh, hclear, hval, hback, charCleared, if_neg h, ht,
      map_some, getD_some]

theorem charBytes_length_pos (h : charBytes c = some bs) : 0 < bs.length := by
  have hlen := charLen_eq c
  rw [h, map_some, charLen] at hlen
  split_ifs at hlen <;> have := some.inj hlen <;> omega

theorem encoded_cons (h : charBytes c = some bs) : encoded (c :: cs) = bs ++ encoded cs := by
  rw [encoded, flatMap_cons, h, getD_some, encoded]

section
variable (h : ∀ c ∈ cs, charBytes c ≠ none) (hmax : maxLen = 0 ∨ len + (encoded cs).length ≤ maxLen)
include h hmax

theorem wtojcsLoop_of_charBytes : wtojcsLoop maxLen len cs = (some (len + (encoded cs).length), encoded cs ++ [0]) := by
  induction cs generalizing len with
  | nil => rfl
  | cons c cs ih =>
    obtain ⟨bs, hbs⟩ := ne_none_iff_exists'.1 (h c mem_cons_self)
    have hpos := charBytes_length_pos hbs
    rw [encoded_cons hbs, length_append] at hmax ⊢
    have hrest : wtojcsLoop maxLen (len + bs.length) cs = _ :=
      ih (fun c hc => h c (mem_cons_of_mem _ hc)) (by omega)
    rw [wtojcsLoop, if_neg (not_full (by omega))]
    simp only [hbs, hrest, Nat.add_assoc, append_assoc]

end

theorem wtojcsLenLoop_eq : wtojcsLenLoop maxLen len cs = (wtojcsLoop maxLen len cs).1 := by
  induction cs generalizing len with
  | nil => rfl
  | cons c cs ih =>
    rw [wtojcsLenLoop, wtojcsLoop, charLen_eq]
    split_ifs
    · rfl
    · cases charBytes c with
      | none => rfl
      | some bs => exact ih

theorem wtojcsLoop_eq_none (hmem : c ∈ cs) (hc : charBytes c = none) : (wtojcsLoop maxLen len cs).1 = none := by
  induction cs generalizing len with
  | nil => cases hmem
  | cons d cs ih =>
    rw [wtojcsLoop]
    split
    · rfl
    · cases hd : charBytes d with
      | none => rfl
      | some bs =>
        rcases mem_cons.1 hmem with rfl | hmem
        · rw [hc] at hd
          cases hd
        · exact ih hmem

theorem jcstowLoop_encoded (h : ∀ c ∈ cs, Encodable c) (hmax : maxLen = 0 ∨ len + cs.length ≤ maxLen) :
    jcstowLoop maxLen len (encoded cs ++ rest) =
      (jcstowLoop maxLen (len + cs.length) rest).map (.cons cs (cs.flatMap charCleared)) := by
  induction cs generalizing len with
  | nil =>
    cases hrest : jcstowLoop maxLen len rest <;> simp [encoded, Decoded.cons, hrest]
  | cons c cs ih =>
    have hc := h c mem_cons_self
    obtain ⟨bs, hbs⟩ := ne_none_iff_exists'.1 (charBytes_ne_none_of_encodable hc)
    rw [length_cons] at hmax
    rw [encoded_cons hbs, append_assoc, jcstowLoop_char hc (not_full (by omega)) hbs,
      ih (fun c hc => h c (mem_cons_of_mem _ hc)) (by omega), Option.map_map, Nat.add_assoc, Nat.add_comm 1]
    congr 1
    funext r
    simp [Decoded.cons]

end Loops

section Strings
variable {s : WStr} {maxLen : ℕ}

def codeSize (s : WStr) : ℕ := (s.chars.map fun c => if c < 128 then 1 else 2).sum

def Suffices (maxLen n : ℕ) : Prop := maxLen = 0 ∨ n ≤ maxLen

/-- An encodable string is read back, and its length is the one of `wtojcs_len`; another string is refused. -/
def Transcodes (s : WStr) : Prop :=
  ((∀ c ∈ s.chars, Encodable c) → ∀ m₁ m₂ m₃, Suffices m₁ (codeSize s) → Suffices m₂ (codeSize s) →
    Suffices m₃ s.chars.length →
    wtojcsLen s m₁ = some (codeSize s) ∧ (wtojcs s m₂).1 = some (codeSize s) ∧
      (wtojcs s m₂).2.length = codeSize s + 1 ∧
      (jcstow (wtojcs s m₂).2 m₃).map (fun r => (r.ret, r.dst)) = some (some s.chars.length, s.chars ++ [0])) ∧
  ((∃ c ∈ s.chars, ¬ Encodable c) → ∀ m, (wtojcs s m).1 = none)

section
variable (h : ∀ c ∈ s.chars, charBytes c ≠ none)
include h

theorem length_encoded : (encoded s.chars).length = codeSize s := by
  rw [encoded, length_flatMap]
  congr 1
  apply map_congr_left
  intro c hc
  obtain ⟨bs, hbs⟩ := ne_none_iff_exists'.1 (h c hc)
  have hlen := charLen_eq c
  rw [hbs, map_some, charLen] at hlen
  rw [hbs]
  split_ifs at hlen ⊢ <;> exact (some.inj hlen).symm

theorem wtojcs_eq (hmax : Suffices maxLen (codeSize s)) :
    wtojcs s maxLen = (some (codeSize s), encoded s.chars ++ [0]) := by
  rw [Suffices, ← length_encoded h] at hmax
  rw [wtojcs, wtojcsLoop_of_charBytes h (by omega), Nat.zero_add, length_encoded h]

end

theorem jcstow_encoded (h : ∀ c ∈ s.chars, Encodable c) (hmax : Suffices maxLen s.chars.length)
    (rest : List UInt8) : jcstow (encoded s.chars ++ 0 :: rest) maxLen =
      some ⟨some s.chars.length, s.chars ++ [0], s.chars.flatMap charCleared ++ 0 :: rest⟩ := by
  rw [Suffices] at hmax
  rw [jcstow, jcstowLoop_encoded h (by omega), Nat.zero_add, jcstowLoop.eq_def]
  simp only [if_true, map_some, Decoded.cons]

/-- It is right for strings without a negative number, and if another character has no code. -/
theorem transcodes_iff (s : WStr) : Transcodes s ↔ (∀ c ∈ s.chars, 0 ≤ c) ∨ ∃ c ∈ s.chars, 0 ≤ c ∧ ¬ Encodable c := by
  have hpos : ∀ c ∈ s.chars, 0 ≤ c → 0 < c := by
    intro c hc hle
    have hne : c ≠ 0 := fun hzero => s.no_nul (hzero ▸ hc)
    omega
  constructor
  · intro h
    by_contra hnot
    rw [not_or, not_forall] at hnot
    obtain ⟨⟨c, hc⟩, hcodes⟩ := hnot
    rw [Classical.not_imp] at hc
    have hall : ∀ c ∈ s.chars, charBytes c ≠ none := by
      intro d hd hnone
      rw [charBytes_eq_none_iff] at hnone
      exact hcodes ⟨d, hd, by omega, hnone.2⟩
    have hbad : ¬ Encodable c := by
      unfold Encodable
      omega
    have hnone := h.2 ⟨c, hc.1, hbad⟩ 0
    rw [wtojcs_eq hall (.inl rfl)] at hnone
    cases hnone
  · intro h
    constructor
    · intro hcodes m1 m2 m3 h1 h2 h3
      have hall := fun c hc => charBytes_ne_none_of_encodable (hcodes c hc)
      rw [wtojcs_eq hall h2, wtojcsLen, wtojcsLenLoop_eq, ← wtojcs, wtojcs_eq hall h1, jcstow_encoded hcodes h3]
      exact ⟨rfl, rfl, by rw [length_append, length_encoded hall]; rfl, rfl⟩
    · rintro ⟨c, hc, hcode⟩ m
      obtain ⟨d, hd, hnonneg, hbad⟩ : ∃ d ∈ s.chars, 0 ≤ d ∧ ¬ Encodable d := by
        rcases h with h | h
        · exact ⟨c, hc, h c hc, hcode⟩
        · exact h
      exact wtojcsLoop_eq_none hd (charBytes_eq_none_iff.2 ⟨hpos d hd hnonneg, hbad⟩)

/-- A negative number is taken for a character of one byte. -/
theorem not_transcodes_negative : ¬ Transcodes ⟨[-1], by decide⟩ := by
  intro h
  have hret := h.2 ⟨-1, by decide, by decide⟩ 0
  exact absurd hret (by decide)

end Strings

section Ascii
variable {c : ℤ} {cs p q : List ℤ} {bs : List UInt8} {maxLen len n : ℕ}

theorem eq_of_wtojcsLenLoop (h : ∀ c ∈ cs, c < 128) (hn : wtojcsLenLoop maxLen len cs = some n) :
    n = len + cs.length := by
  induction cs generalizing len with
  | nil => exact (some.inj hn).symm
  | cons c cs ih =>
    rw [forall_mem_cons] at h
    rw [wtojcsLenLoop] at hn
    split_ifs at hn
    rw [charLen, if_pos h.1, bind_some] at hn
    rw [ih h.2 hn, length_cons, Nat.add_assoc, Nat.add_comm 1]

theorem encoded_of_ascii (h : ∀ c ∈ cs, c < 128) : encoded cs = cs.flatMap charCleared := by
  rw [encoded, flatMap_def]
  congr 1
  apply map_congr_left
  intro c hc
  rw [charBytes_of_lt (h c hc), getD_some, charCleared, if_pos (h c hc)]

theorem length_encoded_of_ascii (h : ∀ c ∈ cs, c < 128) : (encoded cs).length = cs.length := by
  induction cs with
  | nil => rfl
  | cons c cs ih =>
    rw [encoded_cons (charBytes_of_lt (h c mem_cons_self)), length_append,
      ih fun c hc => h c (mem_cons_of_mem _ hc), length_singleton, Nat.add_comm, length_cons]

theorem encoded_prefix_wtojcsLoop (hp : ∀ c ∈ p, charBytes c ≠ none) (hc : charBytes c = some bs)
    (hmax : ¬ Full maxLen (len + (encoded p).length)) :
    encoded p ++ bs <+: (wtojcsLoop maxLen len (p ++ c :: q)).2 := by
  induction p generalizing len with
  | nil =>
    rw [nil_append, wtojcsLoop, if_neg (show ¬ Full maxLen len from hmax)]
    simp only [hc]
    exact prefix_append bs _
  | cons a p ih =>
    rw [forall_mem_cons] at hp
    obtain ⟨as, ha⟩ := ne_none_iff_exists'.1 hp.1
    rw [encoded_cons ha, length_append] at hmax
    have hfull : ¬ Full maxLen len := fun h => hmax ⟨h.1, Nat.le_trans h.2 (Nat.le_add_right _ _)⟩
    rw [encoded_cons ha, append_assoc, cons_append, wtojcsLoop, if_neg hfull]
    simp only [ha]
    rw [prefix_append_right_inj]
    exact ih hp.2 (by rwa [Nat.add_assoc])

end Ascii
end Prj.Jlib
