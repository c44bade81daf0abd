import Prj.Lib13.Pack

/-! What `unpack13` reads and how much an `s` directive writes, on any input. The cursor never gets
ahead of the size that `ISROOM` checks; only the reads of a length, made before the check, and the
terminating NUL can leave their bounds. -/
namespace Prj.Lib13
open Prj.Base List

variable {F : Type} {ch : Char}

/-- The state in which `unpack13` returns. -/
def final : Except (UState F) (UState F) → UState F
  | .ok st => st
  | .error st => st

def declStep (n : Option ℕ) (ch : Char) : Option ℕ :=
  if ch.isDigit then some (10 * n.getD 0 + (ch.toNat - '0'.toNat)) else none

/-- The maximum length a format declares for a directive that follows `pre`: the decimal number
that ends `pre`. -/
def declaredMax (pre : List Char) : Option ℕ := pre.foldl declStep none

/-- No byte at or after `bufsize` has been read, and no string destination with a declared maximum
has received more bytes than that. -/
def Safe (bufsize : ℕ) (fmt : List Char) (st : UState F) : Prop :=
  (∀ i ∈ st.reads, i < bufsize) ∧
    ∀ p bs n, (p, Store.str bs) ∈ st.out → declaredMax (fmt.take p) = some n → bs.length ≤ n

/-- Where a directive starts, what is counted before it, and how many buffers are before it. -/
structure Place where
  cur : ℕ
  size : ℕ
  nbuf : ℕ

def UState.place (st : UState F) : Place := ⟨st.cur, st.size, st.nbuf⟩

section
variable (mem : ℕ → UInt8) (bufsize : ℕ)

def lenAt (p : ℕ) : ℕ := unpacku (fetch mem p 2)

/-- The place behind a directive. The byte of a negative `c` is counted, but not passed. -/
def Place.behind (pl : Place) (ch : Char) : Place :=
  match dirOf ch with
  | .c => ⟨if mem pl.cur ≤ 0x7f then pl.cur + 1 else pl.cur, pl.size + 1, pl.nbuf⟩
  | .int w _ | .flt w _ => ⟨pl.cur + w, pl.size + w, pl.nbuf⟩
  | .s => ⟨pl.cur + 2 + lenAt mem pl.cur, pl.size + (lenAt mem pl.cur + 2), pl.nbuf⟩
  | .b => ⟨pl.cur + 2 + lenAt mem pl.cur, pl.size + (lenAt mem pl.cur + 2), pl.nbuf + 1⟩
  | .digit _ | .other => pl

def placeOf (pre : List Char) : Place := pre.foldl (Place.behind mem) ⟨0, 0, 0⟩

/-- There is room for the directive, and a length is not zero and not over the capacity of its buffer. -/
def Place.Takes (caps : ℕ → ℕ) (pl : Place) (ch : Char) : Prop :=
  (pl.behind mem ch).size ≤ bufsize ∧
    match dirOf ch with
    | .s => lenAt mem pl.cur ≠ 0
    | .b => lenAt mem pl.cur ≠ 0 ∧ lenAt mem pl.cur ≤ caps pl.nbuf
    | _ => True

/-- What a directive needs that is reached: a length must lie inside the buffer, and an accepted string must not be
exactly as long as the maximum that is declared before it. -/
def DirOk (max : Option ℕ) (ch : Char) (pl : Place) : Prop :=
  match dirOf ch with
  | .s =>
    pl.cur + 2 ≤ bufsize ∧ (lenAt mem pl.cur ≠ 0 → pl.size + (lenAt mem pl.cur + 2) ≤ bufsize →
      ∀ n ∈ max, n ≠ 0 ∧ lenAt mem pl.cur ≠ n)
  | .b => pl.cur + 2 ≤ bufsize
  | _ => True

end

structure Inv (bufsize : ℕ) (pre : List Char) (st : UState F) : Prop where
  pos_eq : st.pos = pre.length
  cur_le : st.cur ≤ st.size
  size_le : st.size ≤ bufsize
  max_eq : st.maxstrlen = (declaredMax pre).getD 0 % 2 ^ 32

/-- The last state of `r` has made at least the reads and stores of `st`. -/
def Extends (st : UState F) (r : Except (UState F) (UState F)) : Prop :=
  st.reads ⊆ (final r).reads ∧ st.out ⊆ (final r).out

section
variable {mem : ℕ → UInt8} {bufsize : ℕ} {k : Codec754 F} {caps : ℕ → ℕ} {st st' : UState F}

theorem unpackStep_extends (ch : Char) : Extends st (unpackStep mem bufsize k caps ch st) := by
  unfold unpackStep unpackC unpackFixed unpackS unpackB
  cases dirOf ch
  all_goals
    simp only
    try split_ifs
    all_goals simp [Extends, final, UState.read, UState.store, subset_append_of_subset_left]

theorem unpackStep_cases (mem : ℕ → UInt8) (caps : ℕ → ℕ) (ch : Char) (k : Codec754 F) (hsize : st.size ≤ bufsize) :
    (∃ st', unpackStep mem bufsize k caps ch st = .ok st' ∧ st'.place = st.place.behind mem ch ∧ st'.pos = st.pos ∧
        st.place.Takes mem bufsize caps ch) ∨
      (∃ st', unpackStep mem bufsize k caps ch st = .error st') ∧ ¬st.place.Takes mem bufsize caps ch := by
  unfold unpackStep unpackC unpackFixed unpackS unpackB Place.Takes Place.behind
  cases dirOf ch with
  | c =>
    have hcur : st.place.cur = st.cur := rfl
    simp only [hcur]
    by_cases hroom : st.size + 1 > bufsize
    · rw [if_pos hroom]
      exact .inr ⟨⟨_, rfl⟩, fun h => Nat.not_lt.2 h.1 hroom⟩
    rw [if_neg hroom]
    by_cases hpos : mem st.cur ≤ 0x7f
    · rw [if_pos hpos, if_pos hpos]
      exact .inl ⟨_, rfl, rfl, rfl, not_lt.1 hroom, trivial⟩
    · rw [if_neg hpos, if_neg hpos]
      exact .inl ⟨_, rfl, rfl, rfl, not_lt.1 hroom, trivial⟩
  | int w | flt w =>
    simp only
    by_cases hroom : st.size + w > bufsize
    · rw [if_pos hroom]
      exact .inr ⟨⟨_, rfl⟩, fun h => Nat.not_lt.2 h.1 hroom⟩
    · rw [if_neg hroom]
      exact .inl ⟨_, rfl, rfl, rfl, not_lt.1 hroom, trivial⟩
  | s =>
    simp only
    split_ifs with hzero hroom
    · exact .inr ⟨⟨_, rfl⟩, fun h => h.2 hzero⟩
    · exact .inr ⟨⟨_, rfl⟩, fun h => Nat.not_lt.2 h.1 hroom⟩
    · exact .inl ⟨_, rfl, rfl, rfl, not_lt.1 hroom, hzero⟩
  | b =>
    simp only
    split_ifs with hlen hroom
    · exact .inr ⟨⟨_, rfl⟩, fun h => hlen.elim h.2.1 (Nat.not_lt.2 h.2.2)⟩
    · exact .inr ⟨⟨_, rfl⟩, fun h => Nat.not_lt.2 h.1 hroom⟩
    · exact .inl ⟨_, rfl, rfl, rfl, not_lt.1 hroom, (not_or.1 hlen).1, not_lt.1 (not_or.1 hlen).2⟩
  | digit n => exact .inl ⟨_, rfl, rfl, rfl, hsize, trivial⟩
  | other => exact .inl ⟨_, rfl, rfl, rfl, hsize, trivial⟩

theorem Place.cur_le_behind {pl : Place} (h : pl.cur ≤ pl.size) : (pl.behind mem ch).cur ≤ (pl.behind mem ch).size := by
  unfold Place.behind
  cases dirOf ch
  all_goals
    simp only
    try split_ifs
    all_goals omega

end

section
variable {bufsize : ℕ} {fmt : List Char} {st : UState F}

theorem safe_congr (s : UState F) (hr : st.reads = s.reads) (ho : st.out = s.out) :
    Safe bufsize fmt st ↔ Safe bufsize fmt s := by
  rw [Safe, Safe, hr, ho]

theorem safe_read (p n : ℕ) :
    Safe bufsize fmt (st.read p n) ↔ Safe bufsize fmt st ∧ ∀ i, p ≤ i → i < p + n → i < bufsize := by
  simp only [Safe, UState.read, mem_append, mem_range'_1, or_imp, forall_and, and_imp]
  tauto

theorem safe_read_length (hs : Safe bufsize fmt st) (p : ℕ) : Safe bufsize fmt (st.read p 2) ↔ p + 2 ≤ bufsize := by
  refine (safe_read _ _).trans ⟨fun h => ?_, fun h => ⟨hs, by omega⟩⟩
  have := h.2 (p + 1) (by omega) (by omega)
  omega

theorem safe_store_str (bs : List UInt8) : Safe bufsize fmt (st.store (.str bs)) ↔
    Safe bufsize fmt st ∧ ∀ n, declaredMax (fmt.take st.pos) = some n → bs.length ≤ n := by
  simp only [Safe, UState.store, mem_append, mem_singleton, Prod.mk.injEq, Store.str.injEq, or_imp, forall_and, and_imp]
  aesop

theorem safe_store {v : Store F} (hv : ∀ bs, v ≠ .str bs) : Safe bufsize fmt (st.store v) ↔ Safe bufsize fmt st := by
  have hne (p : ℕ) (bs : List UInt8) : (p, Store.str bs) ≠ (st.pos, v) := fun h =>
    hv bs (Prod.mk.inj h).2.symm
  simp [Safe, UState.store, hne]

end

section
variable {mem : ℕ → UInt8} {bufsize w : ℕ} {k : Codec754 F} {caps : ℕ → ℕ} {st st' : UState F}
variable {pre fmt post : List Char}

theorem unpackC_safe (hi : Inv bufsize pre st) (hs : Safe bufsize fmt st) :
    Safe bufsize fmt (final (unpackC mem bufsize st)) := by
  have hc := hi.cur_le
  have hread (h : st.size + 1 ≤ bufsize) : Safe bufsize fmt ({ st with size := st.size + 1 }.read st.cur 1) :=
    (safe_read _ _).2 ⟨hs, by omega⟩
  unfold unpackC
  simp only
  split_ifs with h1 h2
  · exact hs
  all_goals exact (safe_store (by simp)).2 (hread (by omega))

theorem unpackFixed_safe {value : List UInt8 → Store F} (hv : ∀ bs s, value bs ≠ .str s)
    (hi : Inv bufsize pre st) (hs : Safe bufsize fmt st) :
    Safe bufsize fmt (final (unpackFixed mem bufsize w value st)) := by
  have hc := hi.cur_le
  unfold unpackFixed
  simp only
  split_ifs with h1
  · exact hs
  · exact (safe_store (hv _)).2 ((safe_read _ _).2 ⟨hs, by omega⟩)

theorem unpackB_safe_iff (hi : Inv bufsize pre st) (hs : Safe bufsize fmt st) :
    Safe bufsize fmt (final (unpackB mem bufsize caps st)) ↔ st.cur + 2 ≤ bufsize := by
  have hc := hi.cur_le
  have hlen : Safe bufsize fmt
      { (st.read st.cur 2).store (.len (unpacku (fetch mem st.cur 2))) with nbuf := st.nbuf + 1 } ↔
      st.cur + 2 ≤ bufsize :=
    (safe_store (by simp)).trans (safe_read_length hs _)
  unfold unpackB
  simp only
  split_ifs with h1 h2
  · exact hlen
  · exact hlen
  · refine (safe_store (by simp)).trans ((safe_read _ _).trans ⟨fun h => hlen.1 h.1, fun h => ?_⟩)
    exact ⟨hlen.2 h, by simp only [UState.read, UState.store] at h2 ⊢; omega⟩

theorem strCount_le (m len : ℕ) : strCount m len ≤ len := by
  unfold strCount
  split_ifs <;> omega

/-- With the NUL, an accepted string fits its declared maximum unless that is zero (which the code
takes for no maximum) or exactly the length of the string. -/
theorem strCount_lt_iff {len n m : ℕ} (hlt : len < 2 ^ 16) (hm : m = n % 2 ^ 32) :
    strCount m len + 1 ≤ n ↔ n ≠ 0 ∧ len ≠ n := by
  subst hm
  unfold strCount
  rcases lt_or_ge n (2 ^ 32) with h | h
  all_goals split_ifs <;> omega

section
variable (hi : Inv bufsize pre st) (hs : Safe bufsize fmt st) (hpre : fmt.take st.pos = pre)
include hi hs hpre

theorem unpackS_safe_iff : Safe bufsize fmt (final (unpackS mem bufsize st)) ↔ st.cur + 2 ≤ bufsize ∧
      (unpacku (fetch mem st.cur 2) ≠ 0 → st.size + (unpacku (fetch mem st.cur 2) + 2) ≤ bufsize →
        ∀ n ∈ declaredMax pre, n ≠ 0 ∧ unpacku (fetch mem st.cur 2) ≠ n) := by
  have hc := hi.cur_le
  have hread := safe_read_length hs st.cur
  have hlt : unpacku (fetch mem st.cur 2) < 2 ^ 16 := by
    simpa [unpacku] using ofBigEndian_lt (fetch mem st.cur 2)
  unfold unpackS
  generalize hl : unpacku (fetch mem st.cur 2) = len at *
  by_cases h1 : len = 0
  · rw [if_pos h1]
    refine (safe_congr (st.read st.cur 2) rfl rfl).trans (hread.trans ?_)
    exact ⟨fun h => ⟨h, fun h' => absurd h1 h'⟩, And.left⟩
  rw [if_neg h1]
  by_cases h2 : st.size + (len + 2) > bufsize
  · rw [if_pos h2]
    refine (safe_congr (st.read st.cur 2) rfl rfl).trans (hread.trans ?_)
    exact ⟨fun h => ⟨h, fun _ h' => absurd h' (by omega)⟩, And.left⟩
  rw [if_neg h2]
  have hle := strCount_le st.maxstrlen len
  refine (safe_congr (((st.read st.cur 2).read (st.cur + 2) (strCount st.maxstrlen len)).store
    (.str (fetch mem (st.cur + 2) (strCount st.maxstrlen len) ++ [0]))) rfl rfl).trans
    ((safe_store_str _).trans ?_)
  refine and_congr ((safe_read _ _).trans ?_) ?_
  · exact ⟨fun h => hread.1 h.1, fun h => ⟨hread.2 h, by omega⟩⟩
  · simp only [UState.read, hpre, length_append, length_fetch, length_singleton]
    rw [imp_iff_right h1, imp_iff_right (not_lt.1 h2)]
    refine forall_congr' fun n => imp_congr_right fun hn => ?_
    exact strCount_lt_iff hlt (by rw [hi.max_eq, hn]; rfl)

theorem unpackStep_safe_iff : Safe bufsize fmt (final (unpackStep mem bufsize k caps ch st)) ↔
      DirOk mem bufsize (declaredMax pre) ch st.place := by
  unfold unpackStep DirOk
  cases dirOf ch with
  | c => exact iff_true_intro (unpackC_safe hi hs)
  | int | flt => exact iff_true_intro (unpackFixed_safe (by simp) hi hs)
  | s => exact unpackS_safe_iff hi hs hpre
  | b => exact unpackB_safe_iff hi hs
  | digit | other => exact iff_true_intro hs

end

theorem declaredMax_concat (pre : List Char) (ch : Char) :
    declaredMax (pre ++ [ch]) = declStep (declaredMax pre) ch := by
  simp [declaredMax]

theorem Inv.step (hi : Inv bufsize pre st) (h : unpackStep mem bufsize k caps ch st = .ok st')
    (hplace : st'.place = st.place.behind mem ch) (hpos : st'.pos = st.pos)
    (htakes : st.place.Takes mem bufsize caps ch) : Inv bufsize (pre ++ [ch]) (st'.next ch) := by
  have hcur : st'.place.cur ≤ st'.place.size := hplace ▸ Place.cur_le_behind hi.cur_le
  have hsize : st'.place.size ≤ bufsize := hplace ▸ htakes.1
  refine ⟨by simp [UState.next, hpos, hi.pos_eq], hcur, hsize, ?_⟩
  by_cases hdig : ch.isDigit = true
  · rw [unpackStep, dirOf_of_isDigit hdig] at h
    cases h
    simp only [UState.next, hdig, if_true, declaredMax_concat, declStep, Option.getD_some, hi.max_eq]
    omega
  · simp [UState.next, hdig, declaredMax_concat, declStep]

theorem forall_splits_cons {D : List Char → Char → Prop} : (∀ mid c rest, ch :: post = mid ++ c :: rest → D mid c) ↔
    D [] ch ∧ ∀ mid c rest, post = mid ++ c :: rest → D (ch :: mid) c := by
  constructor
  · intro h
    exact ⟨h [] ch post rfl, fun mid c rest hpost => h (ch :: mid) c rest (by rw [hpost]; rfl)⟩
  · rintro ⟨hfirst, hrest⟩ mid c rest heq
    cases mid with
    | nil => exact (cons.inj heq).1 ▸ hfirst
    | cons x mid =>
      obtain ⟨rfl, hpost⟩ := cons.inj heq
      exact hrest mid c rest hpost

theorem unpackLoop_extends (fmt : List Char) (st : UState F) : Extends st (unpackLoop mem bufsize k caps fmt st) := by
  induction fmt generalizing st with
  | nil => exact ⟨List.Subset.refl _, List.Subset.refl _⟩
  | cons ch fmt ih =>
    have hstep : Extends st (unpackStep mem bufsize k caps ch st) := unpackStep_extends ch
    rw [unpackLoop]
    cases h : unpackStep mem bufsize k caps ch st with
    | error s => rwa [h] at hstep
    | ok s =>
      rw [h] at hstep
      exact ⟨List.Subset.trans hstep.1 (ih (s.next ch)).1, List.Subset.trans hstep.2 (ih (s.next ch)).2⟩

/-- The directives of `pre` are all taken, if the first one is at `pl`. -/
def Place.Passes (mem : ℕ → UInt8) (bufsize : ℕ) (caps : ℕ → ℕ) (pl : Place) (pre : List Char) : Prop :=
  ∀ q ch rest, pre = q ++ ch :: rest → (q.foldl (Place.behind mem) pl).Takes mem bufsize caps ch

theorem Place.passes_nil (pl : Place) : pl.Passes mem bufsize caps [] := by
  intro q c rest h
  simp at h

theorem Place.passes_cons {pl : Place} {mid : List Char} : pl.Passes mem bufsize caps (ch :: mid) ↔
    pl.Takes mem bufsize caps ch ∧ (pl.behind mem ch).Passes mem bufsize caps mid :=
  forall_splits_cons

/-- Which formats are read to their end, and what is counted then. -/
theorem unpackLoop_ok_iff (mem : ℕ → UInt8) (caps : ℕ → ℕ) (k : Codec754 F) (n : ℕ) (hsize : st.size ≤ bufsize) :
    (∃ s, unpackLoop mem bufsize k caps fmt st = .ok s ∧ s.size = n) ↔
      (fmt.foldl (Place.behind mem) st.place).size = n ∧ st.place.Passes mem bufsize caps fmt := by
  induction fmt generalizing st with
  | nil => simp [unpackLoop, UState.place, Place.passes_nil]
  | cons ch fmt ih =>
    rw [unpackLoop, foldl_cons, Place.passes_cons]
    obtain ⟨s, h, hplace, -, htakes⟩ | ⟨⟨s, h⟩, hnot⟩ := unpackStep_cases mem caps ch k hsize
    · have hnext : (s.next ch).place = st.place.behind mem ch := hplace
      rw [h, and_iff_right htakes, ← hnext]
      exact ih (show s.place.size ≤ bufsize from hplace ▸ htakes.1)
    · rw [h]
      exact iff_of_false (by rintro ⟨t, ht, -⟩; cases ht) fun hp => hnot hp.2.1

/-- A run is safe exactly when every directive it reaches finds what it needs. -/
theorem unpackLoop_safe_iff (post : List Char) (hi : Inv bufsize pre st) (hs : Safe bufsize fmt st)
    (hfmt : fmt = pre ++ post) : Safe bufsize fmt (final (unpackLoop mem bufsize k caps post st)) ↔
      ∀ mid ch rest, post = mid ++ ch :: rest → st.place.Passes mem bufsize caps mid →
        DirOk mem bufsize (declaredMax (pre ++ mid)) ch (mid.foldl (Place.behind mem) st.place) := by
  induction post generalizing pre st with
  | nil =>
    refine iff_of_true hs ?_
    intro mid ch rest h
    simp at h
  | cons ch post ih =>
    have htake : fmt.take st.pos = pre := by simp [hfmt, hi.pos_eq]
    have hstep : Safe bufsize fmt (final (unpackStep mem bufsize k caps ch st)) ↔ _ :=
      unpackStep_safe_iff hi hs htake
    rw [forall_splits_cons, unpackLoop, append_nil, foldl_nil, imp_iff_right (Place.passes_nil _)]
    simp only [Place.passes_cons, foldl_cons]
    obtain ⟨s, h, hplace, hpos, htakes⟩ | ⟨⟨s, h⟩, hnot⟩ := unpackStep_cases mem caps ch k hi.size_le
    · rw [h] at hstep ⊢
      have hsub : Extends (s.next ch) (unpackLoop mem bufsize k caps post (s.next ch)) :=
        unpackLoop_extends _ _
      have hrec (hsafe : Safe bufsize fmt s) := ih (hi.step h hplace hpos htakes) hsafe (by simp [hfmt])
      have hnext : (s.next ch).place = st.place.behind mem ch := hplace
      simp only [hnext, append_assoc, singleton_append] at hrec
      simp only [htakes, true_and]
      constructor
      · intro hall
        have hsafe : Safe bufsize fmt s :=
          ⟨fun i hi => hall.1 i (hsub.1 hi), fun p bs n hp => hall.2 p bs n (hsub.2 hp)⟩
        exact ⟨hstep.1 hsafe, (hrec hsafe).1 hall⟩
      · rintro ⟨hok, hall⟩
        exact (hrec (hstep.2 hok)).2 hall
    · rw [h] at hstep ⊢
      exact hstep.trans ⟨fun hok => ⟨hok, fun mid c rest _ hp => absurd hp.1 hnot⟩, And.left⟩

end

/-- `unpack13` stays inside its input and its string destinations exactly when every directive that stands behind
directives that are taken meets `DirOk`. -/
theorem unpack13_safe_iff (k : Codec754 F) (mem : ℕ → UInt8) (bufsize : ℕ) (caps : ℕ → ℕ)
    (fmt : List Char) : Safe bufsize fmt (final (unpack13 mem bufsize k caps fmt)) ↔
      ∀ pre ch post, fmt = pre ++ ch :: post →
        (∀ q c rest, pre = q ++ c :: rest → (placeOf mem q).Takes mem bufsize caps c) →
          DirOk mem bufsize (declaredMax pre) ch (placeOf mem pre) := by
  have hi : Inv bufsize [] (UState.init : UState F) := ⟨rfl, le_rfl, Nat.zero_le _, rfl⟩
  have hs : Safe bufsize fmt (UState.init : UState F) := by simp [Safe, UState.init]
  exact unpackLoop_safe_iff fmt hi hs rfl

/-- A buffer of one byte, and a string as long as its declared maximum. -/
theorem unpack13_unsafe : let k : Codec754 Unit := ⟨fun _ _ _ => 0, fun _ _ _ => ()⟩
    (∃ i ∈ (final (unpack13 (fun _ => 0) 1 k (fun _ => 0) ['s'])).reads, 1 ≤ i) ∧ ∃ bs, (1, Store.str bs) ∈
          (final (unpack13 (fun i => if i = 0 then 0 else 4) 6 k (fun _ => 0) ['4', 's'])).out ∧
        declaredMax ['4'] = some 4 ∧ bs.length = 5 :=
  ⟨⟨1, by decide, le_rfl⟩, [4, 4, 4, 4, 0], by decide, by decide, rfl⟩

end Prj.Lib13
