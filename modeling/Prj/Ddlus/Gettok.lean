import Prj.Base.CString

/-!
Cutting a text into tokens (`gettok` in `ddlus/console/parse.c`).

The text is a memory with a terminator. `size_t` and `unsigned` hold the lengths of all texts. A result `none` is a call
that is undefined, or does not return.
-/
namespace Prj.Ddlus.Gettok
open Prj.Base List Option

section Model
def nul : Char := Char.ofNat 0

/-- The parameters `dlist`, `esc`, `plist` and `blist`. The quotes of `plist` and the two marks of `blist` must be in
`dlist`; `plist` is empty if it is `NULL`. -/
structure Marks where
  dlist : List Char
  esc : Char
  plist : List Char
  blist : Option (Char × Char)
  nul_notMem : nul ∉ dlist
  esc_notMem : esc ∉ dlist
  esc_ne : esc ≠ nul
  plist_subset : plist ⊆ dlist
  blist_mem : ∀ b ∈ blist, b.1 ∈ dlist ∧ b.2 ∈ dlist ∧ b.1 ∉ plist ∧ b.1 ≠ b.2

/-- `expdelimlist` and so on, for cutting expressions. -/
def expMarks : Marks where
  dlist := ['"', '\'', '{', '}', ';']
  esc := '\\'
  plist := ['"', '\'']
  blist := some ('{', '}')
  nul_notMem := by decide
  esc_notMem := by decide
  esc_ne := by decide
  plist_subset := by decide
  blist_mem := by decide

/-- `dbl_delimlist` and so on, for cutting tokens. -/
def dblMarks : Marks where
  dlist := [',', '~', '$', '[', ']', '(', ')', '{', '}', '<', '>', '!', '=', '&', '|', ':', '+', '-', '*', '/', '^',
    '%', ' ', '\t', '"', '\'', '\n', '\r', ';']
  esc := '\\'
  plist := ['"', '\'']
  blist := some ('{', '}')
  nul_notMem := by decide
  esc_notMem := by decide
  esc_ne := by decide
  plist_subset := by decide
  blist_mem := by decide

/-- `packchar` and `bdepth`, of which at most one is not 0. -/
inductive Mode
  | plain
  | pack (packchar : Char)
  | block (bdepth : ℕ)
  deriving DecidableEq

/-- How the search ends: the block or the string is open, the text ends, or the token is from `exp` to `end`. -/
inductive Stop
  | openBlock
  | openString (packchar : Char)
  | ends
  | cut (exp last : ℕ)
  deriving DecidableEq

variable (mk : Marks)

/-- What `strpbrk` or `strchr` looks for. -/
def Marks.wanted : Mode → Char → Bool
  | .plain, c => c ∈ mk.dlist
  | .pack q, c => c = q
  | .block _, c => mk.blist.any (·.2 = c)

def Mode.atEnd : Mode → Stop
  | .plain => .ends
  | .pack q => .openString q
  | .block bdepth => if bdepth > 1 then .openBlock else .ends

/-- What is done at the character that is found at `last`: go on behind it, or stop. -/
def Marks.found (mem : List Char) (last : ℕ) (mode : Mode) : Option (Mode ⊕ Stop) := do
  let c ← mem[last]?
  match mode with
  | .plain =>
    if c ∈ mk.plist then return .inl (.pack c)
    else if mk.blist.any (·.1 = c) then return .inl (.block 1)
    else return .inr (.cut 0 last)
  | .pack q =>
    if c ≠ q then return .inl (.pack q)
    else
      let first ← mem[0]?
      return .inr (.cut (if first = q then 1 else 0) last)
  | .block bdepth =>
    let b ← mk.blist
    if c ≠ b.2 then return .inl (.block (if c = b.1 then bdepth + 1 else bdepth))
    else if bdepth - 1 ≠ 0 then return .inl (.block (bdepth - 1))
    else
      let next ← mem[last + 1]?
      -- `strchr(dlist, 0)` finds the terminator of the list
      return .inr (.cut 0 (if next ∈ mk.dlist ∨ next = nul then last + 1 else last))

/-- The code from `resume:` on. An escape is removed by `strcpy(end - 1, end)`: the two texts overlap, which is
undefined. -/
def resume (mem : List Char) : ℕ → ℕ → Mode → Option Stop
  | 0, _, _ => none
  | fuel + 1, last, mode => do
    match ← strfind nul (mk.wanted mode) mem last with
    | none => return mode.atEnd
    | some last =>
      if last ≠ 0 ∧ mem[last - 1]? = some mk.esc then none
      else
        match ← mk.found mem last mode with
        | .inl mode => resume mem fuel (last + 1) mode
        | .inr stop => return stop

/-- The value that is returned, `*bufsize`, `*delim` if it is set, and what is written from `buf` on. -/
structure Result where
  ret : Option ℕ
  bufsize : ℕ
  delim : Option Char
  buf : List Char
  deriving DecidableEq

/-- The token is copied; the search before it does not depend on the buffer. -/
def Marks.copy (bufsize : ℕ) (mem : List Char) : Stop → Option Result
  | .openBlock => some ⟨none, 0, mk.blist.map (·.1), []⟩
  | .openString q => some ⟨none, 0, some q, []⟩
  | .ends => do
    let tok ← cstr nul mem 0
    if tok.length < bufsize then return ⟨none, tok.length, some nul, tok ++ [nul]⟩
    else return ⟨none, 0, none, []⟩
  | .cut exp last =>
    if last - exp > bufsize then some ⟨none, 0, none, []⟩
    else do
      let delim ← mem[last]?
      return ⟨some (last + 1), last - exp, some delim, (mem.drop exp).take (last - exp) ++ [nul]⟩

def gettok (mem : List Char) (bufsize : ℕ) : Option Result := do
  let stop ← resume mk mem (mem.length + 1) 0 .plain
  mk.copy bufsize mem stop

end Model

variable {mk : Marks} {mem s u v w x y junk tok : List Char} {c d b0 b1 : Char} {fuel exp last bufsize n : ℕ}
  {mode : Mode} {stop : Stop}

section Search
theorem escape_iff : (w.length ≠ 0 ∧ (w ++ s)[w.length - 1]? = some c) ↔ w.getLast? = some c := by
  rcases eq_nil_or_concat w with rfl | ⟨w, a, rfl⟩
  · simp
  · simp

section
variable (mk : Marks) (fuel : ℕ) (junk : List Char) (hs : nul ∉ s)
include hs

theorem resume_none (mode : Mode) (w : List Char) (hf : ∀ a ∈ s, mk.wanted mode a = false) :
    resume mk (w ++ (s ++ nul :: junk)) (fuel + 1) w.length mode = some mode.atEnd := by
  rw [resume, strfind_none hs hf]
  rfl

theorem resume_first (mode : Mode) (w : List Char) (h : First (mk.wanted mode) s u d v) :
    resume mk (w ++ (s ++ nul :: junk)) (fuel + 1) w.length mode =
      if (w ++ u).getLast? = some mk.esc then none
      else (mk.found (w ++ u ++ d :: (v ++ nul :: junk)) (w ++ u).length mode).bind fun
        | .inl mode => resume mk (w ++ u ++ d :: (v ++ nul :: junk)) fuel ((w ++ u).length + 1) mode
        | .inr stop => some stop := by
  have hmem : w ++ (s ++ nul :: junk) = w ++ u ++ d :: (v ++ nul :: junk) := by simp [h.eq]
  rw [resume, strfind_first h hs, hmem, ← length_append]
  simp only [bind_eq_bind, bind_some, escape_iff]
  rfl

theorem resume_plain (h : First (· ∈ mk.dlist) s u d v) : resume mk (s ++ nul :: junk) (fuel + 1) 0 .plain =
    if u.getLast? = some mk.esc then none
    else if d ∈ mk.plist then resume mk (u ++ d :: (v ++ nul :: junk)) fuel (u.length + 1) (.pack d)
    else if mk.blist.any (·.1 = d) then resume mk (u ++ d :: (v ++ nul :: junk)) fuel (u.length + 1) (.block 1)
    else some (.cut 0 u.length) := by
  have hfound : mk.found (u ++ d :: (v ++ nul :: junk)) u.length .plain =
      some (if d ∈ mk.plist then .inl (.pack d)
        else if mk.blist.any (·.1 = d) then .inl (.block 1) else .inr (.cut 0 u.length)) := by
    simp only [Marks.found, getElem?_append_right (Nat.le_refl _), Nat.sub_self, getElem?_cons_zero, bind_eq_bind,
      bind_some]
    split_ifs <;> rfl
  have hrun := resume_first mk fuel junk hs .plain [] h
  rw [nil_append, nil_append, hfound] at hrun
  refine hrun.trans ?_
  split_ifs <;> rfl

end

theorem getLast?_behind (hd : d ∈ mk.dlist) :
    (u ++ [d] ++ x).getLast? = some mk.esc ↔ x.getLast? = some mk.esc := by
  have hne : d ≠ mk.esc := fun h => mk.esc_notMem (h ▸ hd)
  rcases eq_nil_or_concat x with rfl | ⟨x, a, rfl⟩
  · simp [hne]
  · rw [concat_eq_append, ← append_assoc, getLast?_concat, getLast?_concat]

theorem found_pack (hu : d ∉ u) : mk.found (u ++ [d] ++ x ++ d :: s) (u ++ [d] ++ x).length (.pack d) =
    some (.inr (.cut (if u = [] then 1 else 0) (u ++ [d] ++ x).length)) := by
  cases u with
  | nil => simp [Marks.found]
  | cons a u =>
    have hne : a ≠ d := fun h => hu (h ▸ mem_cons_self)
    simp [Marks.found, hne]

theorem found_block (hb : mk.blist = some (b0, b1)) (hy : nul ∉ y) :
    mk.found (w ++ b1 :: (y ++ nul :: junk)) w.length (.block 1) =
      some (.inr (.cut 0 (w.length + if y.head?.all (· ∈ mk.dlist) then 1 else 0))) := by
  have hlast : (w ++ b1 :: (y ++ nul :: junk))[w.length]? = some b1 := by simp
  have hnext : (w ++ b1 :: (y ++ nul :: junk))[w.length + 1]? = some (y.headD nul) := by
    rw [getElem?_append_right (Nat.le_add_right _ _), Nat.add_sub_cancel_left]
    cases y with
    | nil | cons => rfl
  have hdelim : (y.headD nul ∈ mk.dlist ∨ y.headD nul = nul) ↔ y.head?.all (· ∈ mk.dlist) = true := by
    cases y with
    | nil => simp
    | cons c y => simpa using fun h : c = nul => absurd mem_cons_self (h ▸ hy)
  simp only [Marks.found, hlast, hnext, hb, bind_eq_bind, bind_some, hdelim]
  split_ifs <;> simp_all

section
variable (hs : nul ∉ v) (hd : d ∈ mk.dlist)
include hs hd

theorem resume_behind (h : First (mk.wanted mode) v x c y)
    (hfound : mk.found (u ++ [d] ++ x ++ c :: (y ++ nul :: junk)) (u ++ [d] ++ x).length mode = some (.inr stop)) :
    resume mk (u ++ d :: (v ++ nul :: junk)) (fuel + 1) (u.length + 1) mode =
      if x.getLast? = some mk.esc then none else some stop := by
  have hrun := resume_first mk fuel junk hs mode (u ++ [d]) h
  rw [hfound, length_append] at hrun
  simp only [getLast?_behind hd] at hrun
  rw [append_cons u d]
  exact hrun

theorem resume_block (hb : mk.blist = some (d, b1)) (h : First (· = b1) v x b1 y) :
    resume mk (u ++ d :: (v ++ nul :: junk)) (fuel + 1) (u.length + 1) (.block 1) =
      if x.getLast? = some mk.esc then none
      else some (.cut 0 ((u ++ [d] ++ x).length + if y.head?.all (· ∈ mk.dlist) then 1 else 0)) := by
  refine resume_behind hs hd ⟨h.eq, ?_, ?_⟩ (found_block hb fun hy => hs ?_)
  · simpa [Marks.wanted, hb, eq_comm] using h.before
  · simp [Marks.wanted, hb]
  · rw [h.eq]
    exact mem_append_right _ (mem_cons_of_mem _ hy)

end
end Search

section Copy
theorem copy_cut (mk : Marks) (hlast : mem[last]? = some c) (hsize : last - exp ≤ bufsize) :
    mk.copy bufsize mem (.cut exp last) =
      some ⟨some (last + 1), last - exp, some c, (mem.drop exp).take (last - exp) ++ [nul]⟩ := by
  rw [Marks.copy, if_neg (Nat.not_lt.2 hsize), hlast]
  rfl

theorem copy_cut_of_lt (hsize : bufsize < last - exp) :
    mk.copy bufsize mem (.cut exp last) = some ⟨none, 0, none, []⟩ := by
  rw [Marks.copy, if_pos hsize]

theorem length_token (exp : ℕ) (hlast : last < mem.length) :
    ((mem.drop exp).take (last - exp)).length = last - exp := by
  rw [length_take, length_drop, Nat.min_eq_left (by omega)]

/-- Only the buffer is written, and it holds a token of the length that is reported, or an error is returned. -/
structure Result.Safe (r : Result) (bufsize : ℕ) : Prop where
  within : r.buf.length ≤ bufsize
  token : (∃ tok, r.buf = tok ++ [nul] ∧ tok.length = r.bufsize) ∨ (r.ret = none ∧ r.bufsize = 0)

theorem safe_error {delim : Option Char} : Result.Safe ⟨none, 0, delim, []⟩ bufsize :=
  ⟨Nat.zero_le _, .inr ⟨rfl, rfl⟩⟩

theorem safe_token_iff {ret delim} (hlen : tok.length = n) :
    Result.Safe ⟨ret, n, delim, tok ++ [nul]⟩ bufsize ↔ n < bufsize := by
  have hbuf : (tok ++ [nul]).length = n + 1 := by rw [length_append, hlen, length_singleton]
  constructor
  · intro h
    have hwithin := h.within
    rw [hbuf] at hwithin
    exact hwithin
  · intro h
    exact ⟨hbuf ▸ h, .inl ⟨tok, rfl, hlen⟩⟩

section
variable {P : Result → Prop}

/-- The search goes on behind the delimiter `d`, in the given mode. -/
def GoesOn (mk : Marks) (bufsize : ℕ) (u : List Char) (d : Char) (v junk : List Char) (P : Result → Prop)
    (mode : Mode) : Prop :=
  ∃ r, (resume mk (u ++ d :: (v ++ nul :: junk)) (u.length + v.length + junk.length + 2) (u.length + 1) mode).bind
    (mk.copy bufsize (u ++ d :: (v ++ nul :: junk))) = some r ∧ P r

theorem gettok_eq : gettok mk (s ++ nul :: junk) bufsize =
    (resume mk (s ++ nul :: junk) (s.length + junk.length + 2) 0 .plain).bind (mk.copy bufsize (s ++ nul :: junk)) := by
  have hlen : (s ++ nul :: junk).length + 1 = s.length + junk.length + 2 := by
    rw [length_append, length_cons]
    omega
  rw [gettok, hlen]
  rfl

theorem exists_guard_iff {α : Type} {c : Prop} [Decidable c] {x : Option α} {g : α → Option Result} :
    (∃ r, (if c then none else x).bind g = some r ∧ P r) ↔ ¬c ∧ ∃ r, x.bind g = some r ∧ P r := by
  split_ifs with hc
  · simp [hc]
  · simp [hc]

theorem gettok_first_iff (hs : nul ∉ s) (h : First (· ∈ mk.dlist) s u d v) :
    (∃ r, gettok mk (s ++ nul :: junk) bufsize = some r ∧ P r) ↔ u.getLast? ≠ some mk.esc ∧
      if d ∈ mk.plist then GoesOn mk bufsize u d v junk P (.pack d)
      else if d ∈ mk.blist.map (·.1) then GoesOn mk bufsize u d v junk P (.block 1)
      else ∃ r, mk.copy bufsize (u ++ d :: (v ++ nul :: junk)) (.cut 0 u.length) = some r ∧ P r := by
  have hlen : s.length + junk.length + 2 = u.length + v.length + junk.length + 2 + 1 := by
    rw [h.eq, length_append, length_cons]
    omega
  have hmem : s ++ nul :: junk = u ++ d :: (v ++ nul :: junk) := by simp [h.eq]
  have hopen : d ∈ mk.blist.map (·.1) ↔ mk.blist.any (·.1 = d) = true := by
    cases mk.blist with
    | none => simp
    | some b => simp [eq_comm]
  rw [gettok_eq, hlen, resume_plain mk _ junk hs h, exists_guard_iff, hmem]
  simp only [hopen]
  refine and_congr_right fun _ => ?_
  split_ifs <;> rfl

theorem goesOn_pack_iff (hs : nul ∉ v) (hd : d ∈ mk.dlist) (hu : d ∉ u) (h : First (· = d) v x d y) :
    GoesOn mk bufsize u d v junk P (.pack d) ↔ x.getLast? ≠ some mk.esc ∧ ∃ r,
      mk.copy bufsize (u ++ d :: (v ++ nul :: junk)) (.cut (if u = [] then 1 else 0) (u.length + 1 + x.length)) =
        some r ∧ P r := by
  rw [GoesOn, resume_behind hs hd (show First (mk.wanted (.pack d)) v x d y from h) (found_pack hu), exists_guard_iff,
    length_append, length_append]
  rfl

theorem goesOn_block_iff (hs : nul ∉ v) (hd : d ∈ mk.dlist) (hb : mk.blist = some (d, b1))
    (h : First (· = b1) v x b1 y) :
    GoesOn mk bufsize u d v junk P (.block 1) ↔ x.getLast? ≠ some mk.esc ∧ ∃ r,
      mk.copy bufsize (u ++ d :: (v ++ nul :: junk))
        (.cut 0 (u.length + 1 + x.length + if y.head?.all (· ∈ mk.dlist) then 1 else 0)) = some r ∧ P r := by
  rw [GoesOn, resume_block hs hd hb h, exists_guard_iff, length_append, length_append]
  rfl

end

theorem copy_atEnd (mk : Marks) (mode : Mode) (bufsize : ℕ) (junk : List Char) (hs : nul ∉ s) :
    ∃ r, mk.copy bufsize (s ++ nul :: junk) mode.atEnd = some r ∧
      r.Safe bufsize ∧ (r.buf = [] ∨ r.delim = some nul) := by
  have hends : ∃ r, mk.copy bufsize (s ++ nul :: junk) .ends = some r ∧
      r.Safe bufsize ∧ (r.buf = [] ∨ r.delim = some nul) := by
    have hstr : cstr nul (s ++ nul :: junk) 0 = some s := cstr_append [] junk hs
    rw [Marks.copy, hstr]
    simp only [bind_eq_bind, bind_some]
    split
    · next hsize => exact ⟨_, rfl, (safe_token_iff rfl).2 hsize, .inr rfl⟩
    · exact ⟨_, rfl, safe_error, .inl rfl⟩
  cases mode with
  | plain => exact hends
  | pack q => exact ⟨_, rfl, safe_error, .inl rfl⟩
  | block bdepth =>
    simp only [Mode.atEnd]
    split
    · exact ⟨_, rfl, safe_error, .inl rfl⟩
    · exact hends

theorem goesOn_none (bufsize : ℕ) (junk : List Char) (P : Result → Prop) (hs : nul ∉ u ++ d :: v)
    (hf : ∀ a ∈ v, mk.wanted mode a = false) :
    ∃ r, (GoesOn mk bufsize u d v junk P mode ↔ P r) ∧
      r.Safe bufsize ∧ (r.buf = [] ∨ r.delim = some nul) := by
  have hv : nul ∉ v := fun h => hs (mem_append_right _ (mem_cons_of_mem _ h))
  have hrun := resume_none mk (u.length + v.length + junk.length + 1) junk hv mode (u ++ [d]) hf
  obtain ⟨r, hr, hsafe⟩ := copy_atEnd mk mode bufsize junk hs
  rw [← append_cons, length_append, length_singleton] at hrun
  rw [append_assoc, cons_append] at hr
  refine ⟨r, ?_, hsafe⟩
  rw [GoesOn, hrun, bind_some, hr]
  simp

theorem copy_cut_safe_iff (hlast : last < mem.length) :
    (∃ r, mk.copy bufsize mem (.cut exp last) = some r ∧ r.Safe bufsize) ↔ last - exp ≠ bufsize := by
  by_cases hsize : last - exp ≤ bufsize
  · rw [copy_cut mk (getElem?_eq_getElem hlast) hsize]
    simp only [Option.some.injEq, exists_eq_left', safe_token_iff (length_token exp hlast)]
    omega
  · rw [copy_cut_of_lt (by omega)]
    simp only [Option.some.injEq, exists_eq_left']
    exact iff_of_true safe_error (by omega)

/-- No escape is before the place where a search stops, and a token that a delimiter ends does not have exactly the size
of the buffer. -/
def Clear (mk : Marks) (bufsize : ℕ) (s : List Char) : Prop :=
  ∀ u d v, First (· ∈ mk.dlist) s u d v → u.getLast? ≠ some mk.esc ∧
    if d ∈ mk.plist then
      -- the token goes to the second quote, without the first one if that is the first character
      ∀ x c y, First (· = d) v x c y → x.getLast? ≠ some mk.esc ∧
        u.length + 1 + x.length - (if u = [] then 1 else 0) ≠ bufsize
    else if d ∈ mk.blist.map (·.1) then
      -- the token goes to the end of the block, which is left out if no delimiter follows it
      ∀ b ∈ mk.blist, ∀ x c y, First (· = b.2) v x c y → x.getLast? ≠ some mk.esc ∧
        u.length + 1 + x.length + (if y.head?.all (· ∈ mk.dlist) then 1 else 0) ≠ bufsize
    else u.length ≠ bufsize

theorem gettok_safe_iff (mk : Marks) (hs : nul ∉ s) (junk : List Char) (bufsize : ℕ) :
    (∃ r, gettok mk (s ++ nul :: junk) bufsize = some r ∧ r.Safe bufsize) ↔ Clear mk bufsize s := by
  obtain hnone | ⟨u, d, v, h⟩ := forall_or_exists_first (· ∈ mk.dlist) s
  · obtain ⟨r, hr, hsafe, -⟩ := copy_atEnd mk .plain bufsize junk hs
    have hrun := resume_none mk (s.length + junk.length + 1) junk hs .plain [] hnone
    refine iff_of_true ⟨r, ?_, hsafe⟩ fun u d v h => absurd h.here (by simp [hnone d (by simp [h.eq])])
    rw [gettok_eq]
    exact hrun ▸ hr
  have hd : d ∈ mk.dlist := by simpa using h.here
  have hu : d ∉ u := fun hmem => by simpa [hd] using h.before d hmem
  have hv : nul ∉ v := fun hv => hs (by simp [h.eq, hv])
  rw [gettok_first_iff hs h, Clear, h.forall_iff]
  rw [h.eq] at hs
  refine and_congr_right fun _ => ?_
  by_cases hp : d ∈ mk.plist
  · simp only [if_pos hp]
    obtain hnone | ⟨x, c, y, hx⟩ := forall_or_exists_first (· = d) v
    · have hwanted : ∀ a ∈ v, mk.wanted (.pack d) a = false := hnone
      obtain ⟨r, hr, hsafe, -⟩ := goesOn_none bufsize junk (·.Safe bufsize) hs hwanted
      exact iff_of_true (hr.2 hsafe) fun x c y hx => absurd hx.here (by simp [hnone c (by simp [hx.eq])])
    · obtain rfl : c = d := by simpa using hx.here
      rw [goesOn_pack_iff hv hd hu hx, hx.forall_iff]
      refine and_congr_right fun _ => copy_cut_safe_iff ?_
      simp [hx.eq]
      omega
  simp only [if_neg hp]
  by_cases hb : d ∈ mk.blist.map (·.1)
  · simp only [if_pos hb]
    obtain ⟨⟨b0, b1⟩, hmarks, rfl⟩ := Option.map_eq_some_iff.1 hb
    simp only [hmarks, mem_some_iff, forall_eq']
    obtain hnone | ⟨x, c, y, hx⟩ := forall_or_exists_first (· = b1) v
    · have hwanted : ∀ a ∈ v, mk.wanted (.block 1) a = false := by simpa [Marks.wanted, hmarks, eq_comm] using hnone
      obtain ⟨r, hr, hsafe, -⟩ := goesOn_none bufsize junk (·.Safe bufsize) hs hwanted
      exact iff_of_true (hr.2 hsafe) fun x c y hx => absurd hx.here (by simp [hnone c (by simp [hx.eq])])
    · obtain rfl : c = b1 := by simpa using hx.here
      rw [goesOn_block_iff hv hd hmarks hx, hx.forall_iff]
      refine and_congr_right fun _ => (copy_cut_safe_iff ?_).trans (by rw [Nat.sub_zero])
      simp [hx.eq]
      split_ifs <;> omega
  · simp only [if_neg hb]
    exact copy_cut_safe_iff (by rw [length_append, length_cons]; omega)

/-- `'a b' ` is read as the string `a b`, which fills a buffer of four characters. -/
theorem gettok_safe_iff_string :
    ∃ r, gettok dblMarks ['\'', 'a', ' ', 'b', '\'', ' ', nul] 4 = some r ∧ r.Safe 4 := by
  have hquote : First (· ∈ dblMarks.dlist) ['\'', 'a', ' ', 'b', '\'', ' '] [] '\'' ['a', ' ', 'b', '\'', ' '] :=
    ⟨rfl, by simp, by decide⟩
  have hend : First (· = '\'') ['a', ' ', 'b', '\'', ' '] ['a', ' ', 'b'] '\'' [' '] := ⟨rfl, by simp, by decide⟩
  refine (gettok_safe_iff dblMarks (by decide) [] 4).2 (hquote.forall_iff.2 ⟨by decide, ?_⟩)
  exact hend.forall_iff.2 (by decide)

/-- A buffer of two characters and a token of two characters: `buf[2]` is written. -/
theorem gettok_writes_behind : ∃ r, gettok dblMarks ['a', 'b', ' ', nul] 2 = some r ∧ ¬r.Safe 2 :=
  ⟨⟨some 3, 2, some ' ', ['a', 'b', nul]⟩, by decide, fun h => absurd h.within (by decide)⟩

end Copy
end Prj.Ddlus.Gettok
