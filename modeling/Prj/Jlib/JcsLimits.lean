import Prj.Jlib.JtableRead

/-! The limits of `wtojcs`, and the source of `jcstow` and `isjcs` (`jlib/src/jcs.c`). -/
namespace Prj.Jlib
open List Option Jtable

variable {cs : List ℤ} {src rest : List UInt8} {maxLen len : ℕ}

/-- `wtojcs` writes whole characters, at most `maxLen` bytes of them, and a terminator behind the whole string. -/
def WritesInside (s : WStr) (maxLen : ℕ) : Prop :=
  ∃ p t, p <+: s.chars ∧ (wtojcs s maxLen).2 = encoded p ++ t ∧ (encoded p).length ≤ maxLen ∧
    (t = [] ∨ t = [0] ∧ p = s.chars)

/-- `jcstow` and `isjcs` return with their source as it was. -/
def KeepSource (src : List UInt8) (maxLen : ℕ) : Prop :=
  (∃ d, jcstow src maxLen = some d ∧ d.src = src) ∧ ∃ ret, isjcsLoop maxLen 0 src = some (ret, src)

/-- The codes of `p` end below the limit, if there is one, and the code of the next character ends above it. -/
def Overruns (maxLen : ℕ) (cs : List ℤ) : Prop :=
  ∃ p c, p ++ [c] <+: cs ∧ (∀ x ∈ p ++ [c], charBytes x ≠ none) ∧ ¬ Full maxLen (encoded p).length ∧
    maxLen < (encoded (p ++ [c])).length

theorem wtojcsLoop_snd (maxLen len : ℕ) (cs : List ℤ) : ∃ p t, p <+: cs ∧ (∀ x ∈ p, charBytes x ≠ none) ∧
    (wtojcsLoop maxLen len cs).2 = encoded p ++ t ∧ (t = [] ∨ t = [0] ∧ p = cs) ∧
    ∀ p' c, p = p' ++ [c] → ¬ Full maxLen (len + (encoded p').length) := by
  induction cs generalizing len with
  | nil => exact ⟨[], [0], prefix_rfl, by simp, rfl, .inr ⟨rfl, rfl⟩, by simp⟩
  | cons c cs ih =>
    rw [wtojcsLoop]
    split_ifs with hfull
    · exact ⟨[], [], nil_prefix, by simp, rfl, .inl rfl, by simp⟩
    · cases hc : charBytes c with
      | none => exact ⟨[], [], nil_prefix, by simp, rfl, .inl rfl, by simp⟩
      | some bs =>
        obtain ⟨p, t, hp, hcodes, heq, ht, hbelow⟩ := ih (len + bs.length)
        refine ⟨c :: p, t, (prefix_cons_inj c).2 hp, forall_mem_cons.2 ⟨by simp [hc], hcodes⟩, ?_,
          ht.imp_right fun h => ⟨h.1, congrArg (c :: ·) h.2⟩, ?_⟩
        · simp only [encoded_cons hc, heq, append_assoc]
        · rintro (_ | ⟨a, p'⟩) d hcons
          · exact hfull
          · cases hcons
            rw [encoded_cons hc, length_append, ← Nat.add_assoc]
            exact hbelow p' d rfl

theorem writesInside_iff_not_overruns (s : WStr) (maxLen : ℕ) : WritesInside s maxLen ↔ ¬ Overruns maxLen s.chars := by
  constructor
  · rintro ⟨p', t, hp', heq, hle, ht⟩ ⟨p, c, ⟨q, hq⟩, hcodes, hfull, habove⟩
    rw [forall_mem_append, forall_mem_singleton] at hcodes
    obtain ⟨bs, hc⟩ := ne_none_iff_exists'.1 hcodes.2
    have hcode : encoded (p ++ [c]) = encoded p ++ bs := by simp [encoded, hc]
    rw [hcode] at habove
    rcases ht with rfl | ⟨rfl, rfl⟩
    · have hwritten := (encoded_prefix_wtojcsLoop (q := q) hcodes.1 hc (show ¬ Full maxLen (0 + _) by simpa)).length_le
      rw [append_cons, hq] at hwritten
      rw [append_nil] at heq
      have := heq ▸ hwritten
      omega
    · have hall : encoded s.chars = encoded (p ++ [c]) ++ encoded q := by
        rw [← hq]
        exact flatMap_append
      rw [hall, length_append, hcode] at hle
      omega
  · intro h
    obtain ⟨p, t, hp, hcodes, heq, ht, hbelow⟩ := wtojcsLoop_snd maxLen 0 s.chars
    refine ⟨p, t, hp, heq, ?_, ht⟩
    rcases eq_nil_or_concat p with rfl | ⟨p, c, rfl⟩
    · exact Nat.zero_le _
    rw [concat_eq_append] at hp hcodes hbelow ⊢
    refine Nat.not_lt.1 fun hlt => h ⟨p, c, hp, hcodes, ?_, hlt⟩
    simpa using hbelow p c rfl

theorem keepSource_loop (h : ∀ p b, p ++ [b] <+: src → 0 ∈ p ∨ Full maxLen (len + p.length) ∨ b < 128) :
    (∃ d, jcstowLoop maxLen len (src ++ 0 :: rest) = some d ∧ d.src = src ++ 0 :: rest) ∧
      ∃ ret, isjcsLoop maxLen len (src ++ 0 :: rest) = some (ret, src ++ 0 :: rest) := by
  induction src generalizing len with
  | nil => exact ⟨⟨_, by rw [nil_append, jcstowLoop.eq_def]; rfl, rfl⟩, _, by rw [nil_append, isjcsLoop.eq_def]; rfl⟩
  | cons b src ih =>
    rw [cons_append, jcstowLoop.eq_def, isjcsLoop.eq_def]
    by_cases hb : b = 0
    · simp only [if_pos hb]
      exact ⟨⟨_, rfl, rfl⟩, _, rfl⟩
    by_cases hfull : Full maxLen len
    · simp [hb, hfull]
    have hlow : b < 128 := by simpa [hfull] using h [] b (by simp)
    obtain ⟨⟨d, hd, hsrc⟩, ret, hret⟩ := @ih (len + 1) fun p a hp => by
      have hcons := h (b :: p) a ((prefix_cons_inj b).2 hp)
      rw [mem_cons, length_cons, Nat.add_comm p.length, ← Nat.add_assoc] at hcons
      exact hcons.imp_left fun hmem => hmem.resolve_left (Ne.symm hb)
    simp [hb, hfull, hlow, hd, hret, Decoded.cons, hsrc]

theorem low_of_keeps {d : Decoded} {p : List UInt8} {b : UInt8} (hd : jcstowLoop maxLen len (src ++ 0 :: rest) = some d)
    (hsrc : d.src = src ++ 0 :: rest) (hp : p ++ [b] <+: src) : 0 ∈ p ∨ Full maxLen (len + p.length) ∨ b < 128 := by
  induction src generalizing len d p with
  | nil => simp at hp
  | cons a src ih =>
    rw [cons_append] at hd hsrc
    rw [jcstowLoop.eq_def] at hd
    simp only at hd
    split_ifs at hd with hzero hfull hlow
    · cases p with
      | nil => exact .inr (.inr (by simp_all))
      | cons => simp_all
    · exact .inr (.inl ⟨hfull.1, Nat.le_trans hfull.2 (Nat.le_add_right _ _)⟩)
    · obtain ⟨d', hd', rfl⟩ := map_eq_some_iff.1 hd
      cases p with
      | nil => exact .inr (.inr (by simp_all))
      | cons x p =>
        have hrest := ih hd' (cons.inj hsrc).2 (cons_prefix_cons.1 hp).2
        rw [mem_cons, length_cons, Nat.add_comm p.length, ← Nat.add_assoc]
        exact hrest.imp_left .inr
    · have hchanged : a &&& 0x7f ≠ a := by
        intro h
        apply hlow
        rw [← h, UInt8.lt_iff_toNat_lt, UInt8.toNat_and]
        exact Nat.lt_succ_of_le Nat.and_le_right
      split at hd
      · cases hd
      · split at hd
        · cases hd
          exact absurd (cons.inj hsrc).1 hchanged
        · obtain ⟨d', -, rfl⟩ := map_eq_some_iff.1 hd
          exact absurd (cons.inj hsrc).1 hchanged

/-- `wtojcs` stays inside if no character ends above the limit. The source is kept if it ends or the limit is reached
before each byte with a high bit. -/
theorem jcs_limits_iff (s : WStr) (src rest : List UInt8) (maxLen : ℕ) :
    (WritesInside s maxLen ↔ ¬ Overruns maxLen s.chars) ∧ (KeepSource (src ++ 0 :: rest) maxLen ↔
      ∀ p b, p ++ [b] <+: src → 0 ∈ p ∨ Full maxLen p.length ∨ b < 128) := by
  refine ⟨writesInside_iff_not_overruns s maxLen, ?_, fun h => keepSource_loop (by simpa using h)⟩
  rintro ⟨⟨d, hd, hsrc⟩, -⟩ p b hp
  have hlow := low_of_keeps hd hsrc hp
  rwa [Nat.zero_add] at hlow

/-- Two bytes are written for a limit of one byte, and the first one of the source loses its high bit. -/
theorem not_jcs_limits : ¬ WritesInside ⟨[0x633], by decide⟩ 1 ∧ ¬ KeepSource ([0x86, 0x33] ++ 0 :: []) 1 := by
  constructor
  · rintro ⟨p, t, -, heq, hle, ht⟩
    have hlen : (encoded p).length + t.length = 3 := by rw [← length_append, ← heq]; decide
    rcases ht with rfl | ⟨rfl, -⟩ <;> simp at hlen <;> omega
  · rintro ⟨⟨d, hd, hsrc⟩, -⟩
    have hne : (jcstow ([0x86, 0x33] ++ 0 :: []) 1).map Decoded.src ≠ some ([0x86, 0x33] ++ 0 :: []) := by decide
    exact hne (by rw [hd, map_some, hsrc])

end Prj.Jlib
