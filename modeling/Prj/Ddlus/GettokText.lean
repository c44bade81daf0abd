import Prj.Ddlus.Gettok

/-! What `gettok` makes of a text with escaped delimiters, and of a block. -/
namespace Prj.Ddlus.Gettok
open Prj.Base List Option

/-- A character that is no delimiter, or an escaped delimiter. -/
inductive Piece
  | plain (c : Char)
  | escaped (c : Char)
  deriving DecidableEq

def Piece.source (mk : Marks) : Piece → List Char
  | .plain c => [c]
  | .escaped c => [mk.esc, c]

def Piece.value : Piece → Char
  | .plain c => c
  | .escaped c => c

def Piece.Valid (mk : Marks) : Piece → Prop
  | .plain c => c ∉ mk.dlist ∧ c ≠ nul
  | .escaped c => c ∈ mk.dlist

instance (mk : Marks) : DecidablePred (Piece.Valid mk)
  | .plain c => inferInstanceAs (Decidable (c ∉ mk.dlist ∧ c ≠ nul))
  | .escaped c => inferInstanceAs (Decidable (c ∈ mk.dlist))

def Piece.Escaped : Piece → Bool
  | .plain _ => false
  | .escaped _ => true

variable {mk : Marks} {mem u v rest junk tok : List Char} {c d b0 b1 : Char} {exp last bufsize : ℕ} {ps : List Piece}

def Result.Holds (r : Result) (tok : List Char) (bufsize : ℕ) : Prop :=
  r.buf = tok ++ [nul] ∧ r.buf.length ≤ bufsize

def Result.Reports (r : Result) (tok : List Char) (d : Char) (bufsize : ℕ) : Prop :=
  r.Holds tok bufsize ∧ r.delim = some d

theorem Result.Holds.buf_ne {r : Result} (h : r.Holds tok bufsize) : r.buf ≠ [] := by
  rw [h.1]
  simp

theorem Result.Reports.not_end {r : Result} (h : r.Reports tok d bufsize) (hd : d ∈ mk.dlist)
    (hend : r.buf = [] ∨ r.delim = some nul) : False := by
  rcases hend with hbuf | hdelim
  · exact h.1.buf_ne hbuf
  · rw [h.2, some_inj] at hdelim
    exact mk.nul_notMem (hdelim ▸ hd)

theorem copy_cut_iff {P : Result → Prop} (hlast : mem[last]? = some c) :
    (∃ r, mk.copy bufsize mem (.cut exp last) = some r ∧ r.Holds tok bufsize ∧ P r) ↔
      (mem.drop exp).take (last - exp) = tok ∧ tok.length < bufsize ∧
        P ⟨some (last + 1), tok.length, some c, tok ++ [nul]⟩ := by
  have hlength := length_token exp (List.getElem?_eq_some_iff.1 hlast).1
  constructor
  · rintro ⟨r, hr, hholds, hP⟩
    by_cases hsize : last - exp ≤ bufsize
    · rw [copy_cut mk hlast hsize, some_inj] at hr
      subst hr
      obtain ⟨hbuf, hwithin⟩ := hholds
      obtain rfl := append_cancel_right hbuf
      rw [length_append] at hwithin
      rw [hlength]
      exact ⟨rfl, hlength ▸ hwithin, hP⟩
    · rw [copy_cut_of_lt (by omega), some_inj] at hr
      subst hr
      exact absurd rfl hholds.buf_ne
  · rintro ⟨rfl, hsize, hP⟩
    rw [hlength] at hsize hP
    refine ⟨_, copy_cut mk hlast (Nat.le_of_lt hsize), ⟨rfl, ?_⟩, hP⟩
    rw [length_append, hlength]
    exact hsize

theorem copy_cut_reports_iff (hlast : mem[last]? = some c) :
    (∃ r, mk.copy bufsize mem (.cut exp last) = some r ∧ r.Reports tok d bufsize) ↔
      (mem.drop exp).take (last - exp) = tok ∧ tok.length < bufsize ∧ c = d :=
  (copy_cut_iff (P := fun r => r.delim = some d) hlast).trans (by rw [some_inj])

theorem source_of_plain (h : ∀ p ∈ ps, p.Escaped = false) : ps.flatMap (Piece.source mk) = ps.map Piece.value := by
  induction ps with
  | nil => rfl
  | cons p ps ih =>
    rw [forall_mem_cons] at h
    rw [flatMap_cons, ih h.2]
    cases p with
    | plain c => rfl
    | escaped c => cases h.1

theorem value_notMem (hps : ∀ p ∈ ps, p.Valid mk) (h : ∀ p ∈ ps, p.Escaped = false) (hc : c ∈ ps.map Piece.value) :
    c ∉ mk.dlist ∧ c ≠ nul := by
  obtain ⟨p, hp, rfl⟩ := mem_map.1 hc
  cases p with
  | plain c => exact hps _ hp
  | escaped c => cases h _ hp

theorem nul_notMem_source (hps : ∀ p ∈ ps, p.Valid mk) : nul ∉ ps.flatMap (Piece.source mk) := by
  intro h
  obtain ⟨p, hp, hmem⟩ := mem_flatMap.1 h
  have hvalid := hps p hp
  cases p with
  | plain c => exact hvalid.2 (mem_singleton.1 hmem).symm
  | escaped c =>
    simp only [Piece.source, mem_cons, not_mem_nil, or_false] at hmem
    obtain hesc | rfl := hmem
    · exact mk.esc_ne hesc.symm
    · exact mk.nul_notMem hvalid

theorem first_escaped {qs rs : List Piece} {p : Piece} (hps : ∀ p ∈ ps, p.Valid mk)
    (h : First Piece.Escaped ps qs p rs) :
    ∃ u c v, First (· ∈ mk.dlist) (ps.flatMap (Piece.source mk)) (u ++ [mk.esc]) c v := by
  cases p with
  | plain c => cases h.here
  | escaped c =>
    have hqs : ∀ p ∈ qs, p.Valid mk := fun p hp => hps p (h.eq ▸ mem_append_left _ hp)
    have hc : c ∈ mk.dlist := hps (.escaped c) (by rw [h.eq]; exact mem_append_right _ mem_cons_self)
    refine ⟨qs.map Piece.value, c, rs.flatMap (Piece.source mk), ?_, ?_, by simpa using hc⟩
    · rw [h.eq, flatMap_append, flatMap_cons, source_of_plain h.before]
      simp [Piece.source]
    · intro a ha
      rcases mem_append.1 ha with ha | ha
      · simpa using (value_notMem hqs h.before ha).1
      · simpa [mem_singleton.1 ha] using mk.esc_notMem

theorem plain_reports_iff (mk : Marks) (bufsize : ℕ) (junk : List Char) (hs : nul ∉ u ++ d :: rest)
    (h : First (· ∈ mk.dlist) (u ++ d :: rest) u d rest) (hesc : u.getLast? ≠ some mk.esc) :
    (∃ r, gettok mk (u ++ d :: rest ++ nul :: junk) bufsize = some r ∧ r.Reports u d bufsize) ↔ u.length < bufsize ∧
      ((d ∉ mk.plist ∧ ∀ b ∈ mk.blist, d ≠ b.1) ∨ (d ∈ mk.plist ∧ u = [] ∧ rest.head? = some d)) := by
  have hd : d ∈ mk.dlist := by simpa using h.here
  have hu : d ∉ u := fun hmem => by simpa [hd] using h.before d hmem
  have hv : nul ∉ rest := fun hv => hs (by simp [hv])
  -- a longer token is not `u`
  have hlonger : ∀ exp last, last < (u ++ d :: (rest ++ nul :: junk)).length → u.length < last - exp →
      ¬∃ r, mk.copy bufsize (u ++ d :: (rest ++ nul :: junk)) (.cut exp last) = some r ∧ r.Reports u d bufsize := by
    intro exp last hlast hlt hr
    have htok := congrArg List.length ((copy_cut_reports_iff (getElem?_eq_getElem hlast)).1 hr).1
    rw [length_token exp hlast] at htok
    omega
  rw [gettok_first_iff hs h, and_iff_right hesc]
  by_cases hp : d ∈ mk.plist
  · simp only [hp, if_true, not_true, false_and, true_and, false_or]
    obtain hnone | ⟨x, c, y, hx⟩ := forall_or_exists_first (· = d) rest
    · have hwanted : ∀ a ∈ rest, mk.wanted (.pack d) a = false := hnone
      obtain ⟨r, hr, -, hend⟩ := goesOn_none bufsize junk (·.Reports u d bufsize) hs hwanted
      refine iff_of_false (fun hrun => (hr.1 hrun).not_end hd hend) fun hr => ?_
      simpa using hnone d (mem_of_head? hr.2.2)
    · obtain rfl : c = d := by simpa using hx.here
      have hlast : (u ++ c :: (rest ++ nul :: junk))[u.length + 1 + x.length]? = some c := by
        rw [hx.eq, Nat.add_assoc, Nat.add_comm 1, getElem?_append_right (Nat.le_add_right _ _), Nat.add_sub_cancel_left]
        simp
      rw [goesOn_pack_iff hv hd hu hx, copy_cut_reports_iff hlast]
      have hhead : rest.head? = some c ↔ x = [] := by
        rw [hx.eq]
        cases x with
        | nil => simp
        | cons a x => simpa using hx.before a mem_cons_self
      rw [hhead]
      constructor
      · rintro ⟨-, htok, hsize, -⟩
        have hlength := congrArg List.length htok
        rw [length_token _ (List.getElem?_eq_some_iff.1 hlast).1] at hlength
        split_ifs at hlength with hnil
        · exact ⟨hsize, hnil, length_eq_zero_iff.1 (by omega)⟩
        · omega
      · rintro ⟨hsize, rfl, rfl⟩
        exact ⟨by simp, by simp, hsize, rfl⟩
  simp only [hp, if_false, not_false_eq_true, true_and, false_and, or_false]
  by_cases hb : d ∈ mk.blist.map (·.1)
  · simp only [if_pos hb]
    obtain ⟨⟨b0, b1⟩, hmarks, rfl⟩ := Option.map_eq_some_iff.1 hb
    refine iff_of_false ?_ fun hr => hr.2 _ hmarks rfl
    obtain hnone | ⟨x, c, y, hx⟩ := forall_or_exists_first (· = b1) rest
    · have hwanted : ∀ a ∈ rest, mk.wanted (.block 1) a = false := by simpa [Marks.wanted, hmarks, eq_comm] using hnone
      obtain ⟨r, hr, -, hend⟩ := goesOn_none bufsize junk (·.Reports u b0 bufsize) hs hwanted
      exact fun hrun => (hr.1 hrun).not_end hd hend
    · obtain rfl : c = b1 := by simpa using hx.here
      rw [goesOn_block_iff hv hd hmarks hx]
      refine fun hr => hlonger 0 _ ?_ (by omega) hr.2
      simp [hx.eq]
      split_ifs <;> omega
  · simp only [if_neg hb]
    have hopens : ∀ b ∈ mk.blist, d ≠ b.1 := fun b hmem h => hb (h ▸ Option.mem_map_of_mem _ hmem)
    rw [copy_cut_reports_iff (c := d) (by simp), and_iff_left hopens]
    simp

/-- A text of pieces and then a delimiter: nothing is escaped, and no string or block begins with the delimiter. -/
theorem gettok_pieces_iff (mk : Marks) (ps : List Piece) (d : Char) (rest junk : List Char) (bufsize : ℕ)
    (hps : ∀ p ∈ ps, p.Valid mk) (hd : d ∈ mk.dlist) (hunescaped : ps.getLast? ≠ some (.plain mk.esc))
    (hrest : nul ∉ rest) :
    (∃ r, gettok mk (ps.flatMap (Piece.source mk) ++ d :: rest ++ nul :: junk) bufsize = some r ∧
      r.Reports (ps.map Piece.value) d bufsize) ↔ (∀ p ∈ ps, p.Escaped = false) ∧ ps.length < bufsize ∧
      ((d ∉ mk.plist ∧ ∀ b ∈ mk.blist, d ≠ b.1) ∨ (d ∈ mk.plist ∧ ps = [] ∧ rest.head? = some d)) := by
  have hs : nul ∉ ps.flatMap (Piece.source mk) ++ d :: rest := by
    rw [mem_append, mem_cons, not_or, not_or]
    exact ⟨nul_notMem_source hps, fun h => mk.nul_notMem (h ▸ hd), hrest⟩
  obtain hplain | ⟨qs, p, rs, hfirst⟩ := forall_or_exists_first Piece.Escaped ps
  · have hvalues := fun c => value_notMem (c := c) hps hplain
    rw [source_of_plain hplain] at hs ⊢
    rw [plain_reports_iff mk bufsize junk hs ⟨rfl, fun c hc => by simpa using (hvalues c hc).1, by simpa using hd⟩ ?_,
      length_map, map_eq_nil_iff, and_iff_right hplain]
    rw [getLast?_map]
    intro hlast
    obtain ⟨p, hp, hesc⟩ := Option.map_eq_some_iff.1 hlast
    cases p with
    | plain c =>
      obtain rfl : c = mk.esc := hesc
      exact hunescaped hp
    | escaped c => cases hplain _ (mem_of_getLast? hp)
  · obtain ⟨u, c, v, h⟩ := first_escaped hps hfirst
    have h' : First (· ∈ mk.dlist) (ps.flatMap (Piece.source mk) ++ d :: rest) (u ++ [mk.esc]) c (v ++ d :: rest) :=
      ⟨by rw [h.eq]; simp, h.before, h.here⟩
    rw [gettok_first_iff hs h', getLast?_concat]
    have hp : p ∈ ps := by simp [hfirst.eq]
    exact iff_of_false (fun h => h.1 rfl) fun h => Bool.false_ne_true ((h.1 p hp).symm.trans hfirst.here)

theorem gettok_pieces_iff_call :
    ∃ r, gettok dblMarks ['a', 'b', ')', 'c', nul] 8 = some r ∧ r.Reports ['a', 'b'] ')' 8 :=
  (gettok_pieces_iff dblMarks [.plain 'a', .plain 'b'] ')' ['c'] [] 8 (by decide) (by decide) (by decide)
    (by decide)).2 ⟨by decide, by decide, by decide⟩

/-- `\(` and then `)`: the escape is removed by a copy of overlapping texts. -/
theorem gettok_escape : ¬∃ r, gettok dblMarks ['\\', '(', ')', 'c', nul] 8 = some r ∧ r.Reports ['('] ')' 8 := by
  rintro ⟨r, hr, -⟩
  have hnone : gettok dblMarks ['\\', '(', ')', 'c', nul] 8 = none := by decide
  exact Option.some_ne_none r (hr.symm.trans hnone)

section Block
/-- A text in which each opening mark has its closing mark. -/
inductive Balanced (b0 b1 : Char) : List Char → Prop
  | nil : Balanced b0 b1 []
  | char {c : Char} {s : List Char} (h0 : c ≠ b0) (h1 : c ≠ b1) (h : Balanced b0 b1 s) : Balanced b0 b1 (c :: s)
  | block {s t : List Char} (hs : Balanced b0 b1 s) (ht : Balanced b0 b1 t) : Balanced b0 b1 (b0 :: (s ++ b1 :: t))

theorem Balanced.mem_iff (h : Balanced b0 b1 s) : b0 ∈ s ↔ b1 ∈ s := by
  induction h with
  | nil => simp
  | char h0 h1 _ ih => rw [mem_cons, mem_cons, ih, or_iff_right h0.symm, or_iff_right h1.symm]
  | block _ _ _ _ => simp

/-- The token is the block, and the rest of the text is behind it. -/
def Result.Whole (r : Result) (block rest : List Char) (bufsize : ℕ) : Prop :=
  r.Holds block bufsize ∧ ∃ p, r.ret = some p ∧ block.length ≤ p ∧ p ≤ block.length + rest.length

variable {body : List Char}

theorem whole_cut_iff {k : ℕ} (hk : k ≤ 1) :
    (∃ r, mk.copy bufsize (b0 :: (u ++ b1 :: (v ++ (rest ++ nul :: junk)))) (.cut 0 (0 + 1 + u.length + k)) = some r ∧
      r.Whole (b0 :: (u ++ b1 :: v)) rest bufsize) ↔ v = [] ∧ k = 1 ∧ rest ≠ [] ∧ u.length + 2 < bufsize := by
  have hlt : 0 + 1 + u.length + k < (b0 :: (u ++ b1 :: (v ++ (rest ++ nul :: junk)))).length := by
    simp only [length_append, length_cons]
    omega
  have hblock : (b0 :: (u ++ b1 :: v)).length = u.length + 2 + v.length := by
    simp only [length_append, length_cons]
    omega
  unfold Result.Whole
  rw [copy_cut_iff (P := fun r => ∃ p, r.ret = some p ∧ _ ≤ p ∧ p ≤ _) (getElem?_eq_getElem hlt), hblock]
  constructor
  · rintro ⟨htok, hsize, p, hp, hle, hge⟩
    have hlen := congrArg List.length htok
    rw [length_token 0 hlt, hblock] at hlen
    obtain rfl := some_inj.1 hp
    obtain rfl : v = [] := length_eq_zero_iff.1 (by omega)
    refine ⟨rfl, by omega, ?_, hsize⟩
    rintro rfl
    omega
  · rintro ⟨rfl, rfl, hne, hsize⟩
    have hpos := length_pos_iff.2 hne
    refine ⟨?_, hsize, _, rfl, ?_, ?_⟩
    · have hlast : 0 + 1 + u.length + 1 - 0 = u.length + 1 + 1 := by omega
      rw [drop_zero, hlast, take_succ_cons, take_length_add_append]
      rfl
    all_goals
      rw [length_nil]
      omega

/-- Only the first closing mark is found, whatever is opened before. -/
theorem gettok_block_iff (mk : Marks) (body rest junk : List Char) (bufsize : ℕ) (hb : mk.blist = some (b0, b1))
    (hbal : Balanced b0 b1 body) (hbody : nul ∉ body) (hrest : nul ∉ rest) :
    (∃ r, gettok mk (b0 :: (body ++ b1 :: (rest ++ nul :: junk))) bufsize = some r ∧
      r.Whole (b0 :: (body ++ [b1])) rest bufsize) ↔
    b0 ∉ body ∧ body.getLast? ≠ some mk.esc ∧ (∃ c ∈ rest.head?, c ∈ mk.dlist) ∧ body.length + 2 < bufsize := by
  obtain ⟨hmem0, hmem1, -⟩ := mk.blist_mem _ hb
  have hs : nul ∉ b0 :: (body ++ b1 :: rest) := by
    simp only [mem_cons, mem_append, not_or]
    exact ⟨fun h => mk.nul_notMem (h ▸ hmem0), hbody, fun h => mk.nul_notMem (h ▸ hmem1), hrest⟩
  have hopen : First (· ∈ mk.dlist) (b0 :: (body ++ b1 :: rest)) [] b0 (body ++ b1 :: rest) :=
    ⟨rfl, by simp, by simpa using hmem0⟩
  obtain ⟨u, v, hsplit, hu⟩ := eq_append_cons_of_mem (show b1 ∈ body ++ [b1] by simp)
  have hbehind : ∀ s, body ++ b1 :: s = u ++ b1 :: (v ++ s) := by
    intro s
    rw [← singleton_append, ← append_assoc, hsplit, append_assoc, cons_append]
  have hclose : First (· = b1) (body ++ b1 :: rest) u b1 (v ++ rest) := by
    refine ⟨hbehind rest, fun a ha => ?_, by simp⟩
    simpa using fun h : a = b1 => hu (h ▸ ha)
  have hgets : b0 :: (body ++ b1 :: (rest ++ nul :: junk)) = b0 :: (body ++ b1 :: rest) ++ nul :: junk := by simp
  have hplist : b0 ∉ mk.plist := (mk.blist_mem _ hb).2.2.1
  rw [hgets, gettok_first_iff hs hopen, if_neg hplist, if_pos (by simp [hb]),
    goesOn_block_iff (fun h => hs (mem_cons_of_mem _ h)) hmem0 hb hclose, nil_append, hsplit]
  have hmem : body ++ b1 :: rest ++ nul :: junk = u ++ b1 :: (v ++ (rest ++ nul :: junk)) := by
    rw [hbehind]
    simp
  rw [hmem, and_iff_right (by simp)]
  refine (and_congr_right fun _ => whole_cut_iff (by split_ifs <;> omega)).trans ?_
  -- the first closing mark is the last one if and only if there is no inner block
  rcases eq_nil_or_concat v with rfl | ⟨v, x, rfl⟩
  · obtain rfl := append_cancel_right hsplit
    have hinner : b0 ∉ body := fun h => hu (hbal.mem_iff.1 h)
    rw [nil_append, and_iff_right rfl, and_iff_right hinner, and_congr_right_iff, ← and_assoc, and_congr_left_iff]
    intro _ _
    cases rest with
    | nil => simp
    | cons c rest => simp
  · have hinner : body = u ++ b1 :: v := by
      rw [concat_eq_append, ← cons_append, ← append_assoc] at hsplit
      exact append_inj_left' hsplit rfl
    exact iff_of_false (by simp) (fun h => h.1 (hbal.mem_iff.2 (by simp [hinner])))

theorem gettok_block_iff_then : ∃ r, gettok dblMarks ['{', 'a', '}', ' ', 'b', nul] 8 = some r ∧
    r.Whole ['{', 'a', '}'] [' ', 'b'] 8 :=
  (gettok_block_iff dblMarks ['a'] [' ', 'b'] [] 8 rfl (.char (by decide) (by decide) .nil) (by decide) (by decide)).2
    ⟨by decide, by decide, ⟨' ', rfl, by decide⟩, by decide⟩

/-- The token of a block with an inner block ends with the inner one. -/
theorem gettok_inner_block : Balanced '{' '}' ['a', '{', 'b', '}', 'c'] ∧
    ∃ r, gettok dblMarks ['{', 'a', '{', 'b', '}', 'c', '}', ' ', nul] 16 = some r ∧
      ¬r.Whole ['{', 'a', '{', 'b', '}', 'c', '}'] [' '] 16 ∧ r.buf = ['{', 'a', '{', 'b', nul] := by
  refine ⟨.char (by decide) (by decide) (.block (s := ['b']) (.char (by decide) (by decide) .nil)
    (.char (by decide) (by decide) .nil)), ?_⟩
  exact ⟨⟨some 5, 4, some '}', ['{', 'a', '{', 'b', nul]⟩, by decide, fun h => absurd h.1.1 (by decide), rfl⟩

end Block
end Prj.Ddlus.Gettok
