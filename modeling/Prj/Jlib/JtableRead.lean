import Prj.Jlib.Jcs
import Prj.Jlib.Jtable

/-!
Reading a table from a buffer that may hold anything (`jt_buf_to_table` and `_jt_detect_str_type` in
`jlib/src/jtable.c`, `isjcs` in `jlib/src/jcs.c`).

The buffer is a list of its bytes, which `isjcs` changes in place. Sums of a pointer and lengths do not wrap around,
since each part is read before the next one is.
-/
namespace Prj.Jlib.Jtable
open Prj.Base

section Detect
/-- The size of a `wchar_t` and the value of its bytes. -/
structure Wchar where
  size : ℕ
  size_pos : 0 < size
  decode : List UInt8 → ℤ

/-- The loop of `isjcs`: whether the result is not 0, and the bytes after it. `none` if it reads behind the buffer. -/
def isjcsLoop (maxLen : ℕ) : ℕ → List UInt8 → Option (Bool × List UInt8)
  | _, [] => none
  | len, b :: src =>
    if b = 0 then some (len ≠ 0, b :: src)
    else if Full maxLen len then some (true, b :: src)
    else if b < 128 then (isjcsLoop maxLen (len + 1) src).map fun r => (r.1, b :: r.2)
    else
      match src with
      | [] => none
      | b' :: src =>
        match unpack14 ((b &&& 0x7f).toNat * 256 + b'.toNat) with
        | none => some (false, (b &&& 0x7f) :: b' :: src)
        | some _ => (isjcsLoop maxLen (len + 1) src).map fun r => (r.1, (b &&& 0x7f) :: b' :: r.2)

def Wchar.chars (w : Wchar) (src : List UInt8) : List ℤ :=
  (List.range (src.length / w.size)).map fun i => w.decode ((src.drop (i * w.size)).take w.size)

/-- The loop of `wtojcs_len`: whether the result is not -1. `none` if it reads behind the buffer. -/
def wideLoop (maxLen : ℕ) : ℕ → List ℤ → Option Bool
  | _, [] => none
  | idst, c :: src =>
    if c = 0 then some true
    else if Full maxLen idst then some false
    else
      match charLen c with
      | none => some false
      | some n => wideLoop maxLen (idst + n) src

/-- `_jt_detect_str_type`, with the bytes after it. -/
def detectStrType (w : Wchar) (src : List UInt8) (size : ℕ) : Option (StrType × List UInt8) := do
  let jcs ← isjcsLoop size 0 src
  if jcs.1 then some (.jcs, jcs.2)
  else
    let wide ← wideLoop size 0 (w.chars jcs.2)
    if wide then some (.w, jcs.2)
    else
      let len ← jcs.2.findIdx? (· = 0)
      some (if len = size - 1 then .char else .raw, jcs.2)

def Detects (type : UInt8) (data : List UInt8) : Prop :=
  type = typeEmpty ∧ data.head? ≠ some 0x3d ∧ ∃ b ∈ data, ¬ isDigit b ∧ b ≠ 0x2e

instance (type : UInt8) (data : List UInt8) : Decidable (Detects type data) :=
  inferInstanceAs (Decidable (_ ∧ _ ∧ ∃ _ ∈ _, _))

end Detect

section Text
variable {w : Wchar} {k len maxLen idst : ℕ} {g src : List UInt8} {s cs post : List ℤ}

/-- The characters of a text, `k` of them at most: a byte below 128 other than 0, or two that stand for a character. -/
def glyphs : ℕ → List UInt8 → List (List UInt8)
  | k + 1, b :: src =>
    if b = 0 then []
    else if b < 128 then [b] :: glyphs k src
    else
      match src with
      | [] => []
      | b' :: src =>
        if unpack14 ((b &&& 0x7f).toNat * 256 + b'.toNat) = none then [] else [b, b'] :: glyphs k src
  | _, _ => []

def behind (k : ℕ) (src : List UInt8) : List UInt8 := src.drop (glyphs k src).flatten.length

/-- The text once the high bits of the characters, and of what ends them, are cleared. -/
def cleared (k : ℕ) (src : List UInt8) : List UInt8 :=
  ((glyphs k src).flatMap fun g => g.modifyHead (· &&& 0x7f)) ++
    if (glyphs k src).length = k then behind k src else (behind k src).modifyHead (· &&& 0x7f)

/-- A byte stands behind the characters, and it is not the first half of one. -/
def EndsInside (k : ℕ) (src : List UInt8) : Prop :=
  behind k src ≠ [] ∧ ((glyphs k src).length = k ∨ ∀ b, behind k src = [b] → b < 128)

/-- A terminator behind at least one character, or more characters than `k`. -/
def IsJcs (k : ℕ) (src : List UInt8) : Prop :=
  if (behind k src).head? = some 0 then glyphs k src ≠ [] else (glyphs k src).length = k

theorem text_append (hg : glyphs (k + 1) (g ++ src) = g :: glyphs k src) :
    behind (k + 1) (g ++ src) = behind k src ∧ (EndsInside (k + 1) (g ++ src) ↔ EndsInside k src) ∧
      cleared (k + 1) (g ++ src) = g.modifyHead (· &&& 0x7f) ++ cleared k src := by
  have hbehind : behind (k + 1) (g ++ src) = behind k src := by
    rw [behind, hg, List.flatten_cons, List.length_append, ← List.drop_drop, List.drop_left, behind]
  refine ⟨hbehind, ?_, ?_⟩
  · rw [EndsInside, EndsInside, hbehind, hg, List.length_cons, Nat.add_right_cancel_iff]
  · rw [cleared, cleared, hbehind, hg, List.flatMap_cons, List.length_cons, List.append_assoc]
    simp only [Nat.add_right_cancel_iff]

theorem low_and {b : UInt8} (h : b < 128) : b &&& 0x7f = b := by
  have hall : ∀ n < 128, UInt8.ofNat n &&& 0x7f = UInt8.ofNat n := by decide +kernel
  simpa using hall b.toNat (UInt8.lt_iff_toNat_lt.1 h)

/-- An answer of `isjcs` for a text behind `len` characters. -/
def Answers (k len : ℕ) (src : List UInt8) : Option (Bool × List UInt8) → Prop
  | none => ¬ EndsInside k src
  | some r => EndsInside k src ∧ r.2 = cleared k src ∧
    (r.1 = true ↔ if (behind k src).head? = some 0 then len + (glyphs k src).length ≠ 0 else (glyphs k src).length = k)

theorem Answers.append {r : Option (Bool × List UInt8)} (hg : glyphs (k + 1) (g ++ src) = g :: glyphs k src)
    (h : Answers k (len + 1) src r) :
    Answers (k + 1) len (g ++ src) (r.map fun r => (r.1, g.modifyHead (· &&& 0x7f) ++ r.2)) := by
  obtain ⟨hbehind, hinside, hcleared⟩ := text_append hg
  cases r with
  | none => exact fun hin => h (hinside.1 hin)
  | some r =>
    obtain ⟨hin, hbytes, hret⟩ := h
    refine ⟨hinside.2 hin, by rw [hcleared, ← hbytes], ?_⟩
    rw [hbehind, hg, List.length_cons, Nat.add_right_cancel_iff, Nat.add_comm _ 1, ← Nat.add_assoc]
    exact hret

/-- The loop of `isjcs` goes over the characters, and clears their high bits. -/
theorem answers_isjcsLoop (len : ℕ) (src : List UInt8) (h : len + k ≠ 0) :
    Answers k len src (isjcsLoop (len + k) len src) := by
  induction k generalizing len src with
  | zero =>
    rw [isjcsLoop.eq_def]
    cases src with
    | nil => exact fun h => h.1 rfl
    | cons b src =>
      have hfull : Full (len + 0) len := ⟨h, Nat.le_refl _⟩
      by_cases hb : b = 0
      · simp [hb, Answers, EndsInside, cleared, glyphs, behind]
      · simp only [if_neg hb, if_pos hfull]
        simp [hb, Answers, EndsInside, cleared, glyphs, behind]
  | succ k ih =>
    have hfull : ¬ Full (len + (k + 1)) len := fun h => by
      have := h.2
      omega
    have hrest : ∀ src, Answers k (len + 1) src (isjcsLoop (len + (k + 1)) (len + 1) src) := by
      intro src
      rw [Nat.add_comm k, ← Nat.add_assoc]
      exact ih _ _ (by omega)
    rw [isjcsLoop.eq_def]
    cases src with
    | nil => exact fun h => h.1 rfl
    | cons b src =>
      by_cases hb : b = 0
      · simp [hb, Answers, EndsInside, cleared, glyphs, behind]
      by_cases hlow : b < 128
      · have hg : glyphs (k + 1) ([b] ++ src) = [b] :: glyphs k src := by simp [glyphs, hb, hlow]
        have hans := (hrest src).append hg
        simp only [List.modifyHead_cons, low_and hlow] at hans
        simpa [hb, hfull, hlow] using hans
      · simp only [if_neg hb, if_neg hfull, if_neg hlow]
        cases src with
        | nil => simp [Answers, EndsInside, behind, glyphs, hb, hlow]
        | cons b' src =>
          dsimp only
          cases hcode : unpack14 ((b &&& 0x7f).toNat * 256 + b'.toNat) with
          | none =>
            have hnil : glyphs (k + 1) (b :: b' :: src) = [] := by
              simp only [glyphs, if_neg hb, if_neg hlow, hcode, if_true]
            simp [Answers, EndsInside, cleared, behind, hnil, hb]
          | some c =>
            have hg : glyphs (k + 1) ([b, b'] ++ src) = [b, b'] :: glyphs k src := by
              simp only [List.cons_append, List.nil_append, glyphs, if_neg hb, if_neg hlow, hcode, reduceCtorEq,
                if_false]
            exact (hrest src).append hg

/-- The characters of wide text before its terminator are a string that is counted up to `k`. -/
def IsWide (k : ℕ) (cs : List ℤ) : Prop :=
  ∃ (s : WStr) (post : List ℤ), cs = s.chars ++ 0 :: post ∧ wtojcsLen s k ≠ none

def wideSize (cs : List ℤ) : ℕ := (cs.map fun c => (charLen c).getD 0).sum

/-- Wide text has a terminator, a character without a code, or one behind `k` bytes of codes. -/
def WideEnds (k : ℕ) (cs : List ℤ) : Prop :=
  ∃ pre c post, cs = pre ++ c :: post ∧ (c = 0 ∨ charLen c = none ∨ Full k (wideSize pre))

theorem wideLoop_append (hs : 0 ∉ s) : wideLoop maxLen idst (s ++ 0 :: post) =
    some (wtojcsLenLoop maxLen idst s).isSome := by
  induction s generalizing idst with
  | nil => rw [List.nil_append, wideLoop, if_pos rfl]; rfl
  | cons c s ih =>
    rw [List.mem_cons, not_or] at hs
    rw [List.cons_append, wideLoop, if_neg (Ne.symm hs.1), wtojcsLenLoop]
    split_ifs with hfull
    · rfl
    · cases charLen c with
      | none => rfl
      | some n => exact ih hs.2

theorem wideLoop_isSome_iff : (wideLoop maxLen idst cs).isSome = true ↔
    ∃ pre c post, cs = pre ++ c :: post ∧ (c = 0 ∨ charLen c = none ∨ Full maxLen (idst + wideSize pre)) := by
  induction cs generalizing idst with
  | nil => simp [wideLoop]
  | cons c cs ih =>
    rw [wideLoop]
    have hhead : (c = 0 ∨ charLen c = none ∨ Full maxLen idst) → ∃ pre c' post, c :: cs = pre ++ c' :: post ∧
        (c' = 0 ∨ charLen c' = none ∨ Full maxLen (idst + wideSize pre)) := fun h => ⟨[], c, cs, rfl, h⟩
    by_cases hzero : c = 0
    · rw [if_pos hzero]
      exact iff_of_true rfl (hhead (.inl hzero))
    by_cases hfull : Full maxLen idst
    · rw [if_neg hzero, if_pos hfull]
      exact iff_of_true rfl (hhead (.inr (.inr hfull)))
    rw [if_neg hzero, if_neg hfull]
    cases hlen : charLen c with
    | none => exact iff_of_true rfl (hhead (.inr (.inl hlen)))
    | some n =>
      rw [ih]
      have hsize : ∀ pre, wideSize (c :: pre) = n + wideSize pre := fun pre => by simp [wideSize, hlen]
      constructor
      · rintro ⟨pre, c', post, rfl, h⟩
        exact ⟨c :: pre, c', post, rfl, by rwa [hsize, ← Nat.add_assoc]⟩
      · rintro ⟨pre, c', post, heq, h⟩
        cases pre with
        | nil =>
          obtain ⟨rfl, -⟩ := List.cons.inj heq
          simp [hzero, hlen, hfull, wideSize] at h
        | cons c'' pre =>
          obtain ⟨rfl, rfl⟩ := List.cons.inj heq
          exact ⟨pre, c', post, rfl, by rwa [hsize, ← Nat.add_assoc] at h⟩

theorem isWide_iff : IsWide k cs ↔ wideLoop k 0 cs = some true := by
  constructor
  · rintro ⟨s, post, rfl, h⟩
    rw [wideLoop_append s.no_nul, ← wtojcsLen, Option.isSome_iff_ne_none.2 h]
  · intro h
    have hmem : 0 ∈ cs := by
      by_contra hmem
      generalize 0 = idst at h
      induction cs generalizing idst with
      | nil => cases h
      | cons c cs ih =>
        rw [List.mem_cons, not_or] at hmem
        rw [wideLoop, if_neg (Ne.symm hmem.1)] at h
        split_ifs at h with hfull
        · cases h
        split at h
        · cases h
        · exact ih hmem.2 _ h
    obtain ⟨s, post, rfl, hs⟩ := List.eq_append_cons_of_mem hmem
    rw [wideLoop_append hs, Option.some_inj, Option.isSome_iff_ne_none] at h
    exact ⟨⟨s, hs⟩, post, rfl, h⟩

/-- What the search for the type of a text asks of its bytes. -/
structure TextInside (w : Wchar) (k : ℕ) (src : List UInt8) : Prop where
  jcs : EndsInside k src
  wide : ¬ IsJcs k src → WideEnds k (w.chars (cleared k src)) ∧ (IsWide k (w.chars (cleared k src)) ∨ 0 ∈ cleared k src)

theorem detectStrType_cases (w : Wchar) (src : List UInt8) (hk : k ≠ 0) :
    (TextInside w k src ∧ ∃ t, detectStrType w src k = some (t, cleared k src)) ∨
      (¬ TextInside w k src ∧ detectStrType w src k = none) := by
  have hans : Answers k 0 src (isjcsLoop k 0 src) := by
    simpa using answers_isjcsLoop 0 src (by omega : 0 + k ≠ 0)
  rw [detectStrType]
  cases hjcs : isjcsLoop k 0 src with
  | none =>
    rw [hjcs] at hans
    exact .inr ⟨fun h => hans h.jcs, rfl⟩
  | some r =>
    rw [hjcs] at hans
    obtain ⟨hinside, hbytes, hret⟩ := hans
    have hisJcs : r.1 = true ↔ IsJcs k src := by simpa [IsJcs] using hret
    rw [Option.bind_eq_bind, Option.bind_some, hbytes]
    by_cases hr : r.1 = true
    · rw [if_pos hr]
      exact .inl ⟨⟨hinside, fun h => absurd (hisJcs.1 hr) h⟩, _, rfl⟩
    rw [if_neg hr]
    have hends : WideEnds k (w.chars (cleared k src)) ↔ (wideLoop k 0 (w.chars (cleared k src))).isSome = true := by
      simp only [wideLoop_isSome_iff, WideEnds, Nat.zero_add]
    have hiff : TextInside w k src ↔ WideEnds k (w.chars (cleared k src)) ∧
        (IsWide k (w.chars (cleared k src)) ∨ 0 ∈ cleared k src) :=
      ⟨fun h => h.wide (fun hj => hr (hisJcs.2 hj)), fun h => ⟨hinside, fun _ => h⟩⟩
    rw [hiff, hends, isWide_iff]
    cases hwide : wideLoop k 0 (w.chars (cleared k src)) with
    | none => exact .inr ⟨by simp, rfl⟩
    | some wide =>
      cases wide with
      | true => exact .inl ⟨⟨rfl, .inl rfl⟩, _, rfl⟩
      | false =>
        simp only [Option.isSome_some, true_and, Option.some_inj, Bool.false_eq_true, false_or]
        cases hfind : (cleared k src).findIdx? (· = 0) with
        | none => exact .inr ⟨fun hmem => by simpa using List.findIdx?_eq_none_iff.1 hfind 0 hmem, rfl⟩
        | some i =>
          refine .inl ⟨?_, _, rfl⟩
          have hsome : ((cleared k src).findIdx? (· = 0)).isSome = true := by rw [hfind]; rfl
          simpa using hsome

end Text

section Read
/-- A return value below zero, or what must not happen: a read outside of the buffer or a write outside of what is
allocated. -/
inductive ReadError
  | outside
  | fault
  | limit
  | exist
  deriving DecidableEq, Repr

def Error.toRead : Error → ReadError
  | .forbid | .fault => .fault
  | .limit => .limit
  | .exist => .exist

/-- `n` bytes from `off` on. Nothing is read if there are none. -/
def partAt (buf : List UInt8) (off : ℕ) (n : UInt32) : Except ReadError Blob :=
  if n = 0 ∨ off + n.toNat ≤ buf.length then
    .ok ⟨(buf.drop off).take n.toNat, lt_of_le_of_lt (List.length_take_le ..) n.toNat_lt⟩
  else .error .outside

def cellHdrAt (buf : List UInt8) (pos : ℕ) : CellHdr := .ofBytes ((buf.drop pos).take 31)

/-- The type of a text at `off`, if it is asked for, with the buffer after it. -/
def detectIn (w : Wchar) (env : Env) (buf : List UInt8) (off : ℕ) (type : UInt8) (data : Blob) :
    Except ReadError (StrType × List UInt8) :=
  if Detects type data.bytes then
    match detectStrType w (buf.drop off) data.size.toNat with
    | none => .error .outside
    | some found => .ok (found.1, buf.take off ++ found.2)
  else .ok (env.strType, buf)

/-- `jt_create_cell` for the parts at `off`, with the buffer after it. -/
def createCellIn (w : Wchar) (env : Env) (buf : List UInt8) (off : ℕ) (datalen clen fdatalen : UInt32)
    (type mergeDir : UInt8) (row col : UInt32) : Except ReadError (Cell × List UInt8) := do
  let comments ← partAt buf (off + datalen.toNat) clen
  let data ← partAt buf off datalen
  let format ← partAt buf (off + datalen.toNat + clen.toNat) fdatalen
  let found ← detectIn w env buf off type data
  let cell ← (jtCreateCell { env with strType := found.1 } data comments format type mergeDir row col).mapError
    Error.toRead
  .ok (cell, found.2)

/-- A round of the loop of `jt_buf_to_table`. -/
def readCellIn (w : Wchar) (env : Env) (pos : ℕ) (st : List UInt8 × Table) : Except ReadError (List UInt8 × Table) :=
  if pos + 31 ≤ st.1.length then do
    let hdr := cellHdrAt st.1 pos
    let r ← createCellIn w env st.1 hdr.off.toNat hdr.datalen hdr.clen hdr.fdatalen hdr.type
      (.ofNat hdr.mergeDir.val) hdr.row hdr.col
    let table ← (jtAddCell st.2 r.1).mapError Error.toRead
    .ok (r.2, table.setBack)
  else .error .outside

def readCellsIn (w : Wchar) (envs : ℕ → Env) : ℕ → ℕ → ℕ → List UInt8 × Table → Except ReadError (List UInt8 × Table)
  | 0, _, _, st => .ok st
  | n + 1, k, pos, st => do
    let st ← readCellIn w (envs k) pos st
    readCellsIn w envs n (k + 1) (pos + 31) st

/-- `jt_buf_to_table`. The table has its old cells, `envs` are what the calls of `jt_create_cell` find. -/
def bufToTable (w : Wchar) (envs : ℕ → Env) (table : Table) (buf : Blob) : Except ReadError Table :=
  if 20 ≤ buf.bytes.length then do
    let hdr := TableHdr.ofBytes (buf.bytes.take 20)
    let st ← readCellsIn w envs hdr.ncells.toNat 0 20 (buf.bytes, { table with hdr })
    .ok st.2
  else .error .outside

/-- A table or an error, and nothing is read or written where it must not be. -/
def Safe {α : Type} (r : Except ReadError α) : Prop := ∀ e, r = .error e → e = .limit ∨ e = .exist

end Read

section Safety
variable {w : Wchar} {env : Env} {envs : ℕ → Env} {buf : List UInt8} {off pos : ℕ} {n datalen clen fdatalen : UInt32}
  {type mergeDir : UInt8} {row col : UInt32} {st : List UInt8 × Table}

def PartInside (buf : List UInt8) (off : ℕ) (n : UInt32) : Prop :=
  (n = 0 ∨ off + n.toNat ≤ buf.length) ∧ n + 1 ≠ 0

/-- The parts of a cell are inside of the buffer, their lengths do not wrap around, and a search for the type ends. -/
structure PartsInside (w : Wchar) (buf : List UInt8) (off : ℕ) (datalen clen fdatalen : UInt32) (type : UInt8) :
    Prop where
  data : PartInside buf off datalen
  comments : PartInside buf (off + datalen.toNat) clen
  format : PartInside buf (off + datalen.toNat + clen.toNat) fdatalen
  detect : Detects type ((buf.drop off).take datalen.toNat) → TextInside w datalen.toNat (buf.drop off)

/-- The buffer after a cell, whose text has lost its high bits if its type was searched for. -/
def typed (buf : List UInt8) (off : ℕ) (datalen : UInt32) (type : UInt8) : List UInt8 :=
  if Detects type ((buf.drop off).take datalen.toNat) then
    buf.take off ++ cleared datalen.toNat (buf.drop off)
  else buf

theorem partAt_of (h : n = 0 ∨ off + n.toNat ≤ buf.length) :
    ∃ b, partAt buf off n = .ok b ∧ b.bytes = (buf.drop off).take n.toNat ∧ b.size = n ∧ (copies b ↔ n + 1 ≠ 0) := by
  have hlen : ((buf.drop off).take n.toNat).length = n.toNat := by
    rw [List.length_take, List.length_drop]
    rcases h with rfl | h
    · exact Nat.zero_min _
    · omega
  have hsize : UInt32.ofNat ((buf.drop off).take n.toNat).length = n := by rw [hlen, UInt32.ofNat_toNat]
  refine ⟨_, if_pos h, rfl, hsize, ?_⟩
  simp only [copies, Blob.size, hsize]
  refine ⟨fun hcopies => ?_, fun hn _ => hn⟩
  by_cases hnil : (buf.drop off).take n.toNat = []
  · rw [hnil] at hsize
    rw [← hsize]
    decide
  · exact hcopies hnil

theorem jtCreateCell_cases (env : Env) (data comments format : Blob) : (copies comments ∧ copies data ∧ copies format ∧
      ∃ c, jtCreateCell env data comments format type mergeDir row col = .ok c ∧ c.hdr.row = row ∧ c.hdr.col = col) ∨
    (¬ (copies comments ∧ copies data ∧ copies format) ∧
      jtCreateCell env data comments format type mergeDir row col = .error .fault) := by
  by_cases h : copies comments ∧ copies data ∧ copies format
  · exact .inl ⟨h.1, h.2.1, h.2.2, _, if_pos h, rfl, rfl⟩
  · exact .inr ⟨h, if_neg h⟩

variable (w env buf off type) in
theorem detectIn_cases {data : Blob} (hbytes : data.bytes = (buf.drop off).take datalen.toNat)
    (hsize : data.size = datalen) : ((Detects type data.bytes → TextInside w datalen.toNat (buf.drop off)) ∧
      ∃ t, detectIn w env buf off type data = .ok (t, typed buf off datalen type)) ∨
    (¬ (Detects type data.bytes → TextInside w datalen.toNat (buf.drop off)) ∧
      detectIn w env buf off type data = .error .outside) := by
  unfold detectIn typed
  rw [← hbytes, hsize]
  by_cases hdetects : Detects type data.bytes
  · have hpos : datalen.toNat ≠ 0 := by
      obtain ⟨-, -, b, hb, -⟩ := hdetects
      rw [hbytes] at hb
      exact fun h => by simp [h] at hb
    rcases detectStrType_cases w (buf.drop off) hpos with ⟨hinside, t, ht⟩ | ⟨hinside, hnone⟩
    · exact .inl ⟨fun _ => hinside, t, by simp [hdetects, ht]⟩
    · exact .inr ⟨fun h => hinside (h hdetects), by simp [hdetects, hnone]⟩
  · exact .inl ⟨fun h => absurd h hdetects, _, by rw [if_neg hdetects, if_neg hdetects]⟩

variable (w env buf off datalen clen fdatalen type mergeDir row col) in
theorem createCellIn_cases : (PartsInside w buf off datalen clen fdatalen type ∧
      ∃ c, createCellIn w env buf off datalen clen fdatalen type mergeDir row col =
        .ok (c, typed buf off datalen type) ∧ c.hdr.row = row ∧ c.hdr.col = col) ∨
    (¬ PartsInside w buf off datalen clen fdatalen type ∧
      ∃ e, createCellIn w env buf off datalen clen fdatalen type mergeDir row col = .error e ∧
        (e = .outside ∨ e = .fault)) := by
  unfold createCellIn
  by_cases hcomments : clen = 0 ∨ off + datalen.toNat + clen.toNat ≤ buf.length
  swap
  · exact .inr ⟨fun h => hcomments h.comments.1, _, by rw [partAt, if_neg hcomments]; rfl, .inl rfl⟩
  obtain ⟨c, hc, -, -, hccopies⟩ := partAt_of hcomments
  by_cases hdata : datalen = 0 ∨ off + datalen.toNat ≤ buf.length
  swap
  · exact .inr ⟨fun h => hdata h.data.1, _, by rw [hc, partAt, if_neg hdata]; rfl, .inl rfl⟩
  obtain ⟨d, hd, hdbytes, hdsize, hdcopies⟩ := partAt_of hdata
  by_cases hformat : fdatalen = 0 ∨ off + datalen.toNat + clen.toNat + fdatalen.toNat ≤ buf.length
  swap
  · exact .inr ⟨fun h => hformat h.format.1, _, by rw [hc, hd, partAt, if_neg hformat]; rfl, .inl rfl⟩
  obtain ⟨f, hf, -, -, hfcopies⟩ := partAt_of hformat
  -- what is left are the search for the type and the lengths
  rw [hc, hd, hf]
  rcases detectIn_cases w env buf off type hdbytes hdsize with ⟨hdetect, t, ht⟩ | ⟨hdetect, ht⟩
  · rw [hdbytes] at hdetect
    rcases jtCreateCell_cases { env with strType := t } d c f with ⟨h1, h2, h3, cell, hcell, hplace⟩ | ⟨hcopies, hcell⟩
    · refine .inl ⟨⟨⟨hdata, hdcopies.1 h2⟩, ⟨hcomments, hccopies.1 h1⟩, ⟨hformat, hfcopies.1 h3⟩, hdetect⟩,
        cell, ?_, hplace⟩
      simp only [bind, Except.bind, ht]
      rw [hcell]
      rfl
    · refine .inr ⟨fun h => hcopies ⟨hccopies.2 h.comments.2, hdcopies.2 h.data.2, hfcopies.2 h.format.2⟩,
        .fault, ?_, .inr rfl⟩
      simp only [bind, Except.bind, ht]
      rw [hcell]
      rfl
  · rw [hdbytes] at hdetect
    refine .inr ⟨fun h => hdetect h.detect, .outside, ?_, .inl rfl⟩
    simp only [bind, Except.bind, ht]

def CellInside (w : Wchar) (buf : List UInt8) (pos : ℕ) : Prop :=
  pos + 31 ≤ buf.length ∧ PartsInside w buf (cellHdrAt buf pos).off.toNat (cellHdrAt buf pos).datalen
    (cellHdrAt buf pos).clen (cellHdrAt buf pos).fdatalen (cellHdrAt buf pos).type

theorem safe_ok {α : Type} (a : α) : Safe (.ok a : Except ReadError α) := by
  intro e h
  cases h

theorem not_safe_error {α : Type} {e : ReadError} (h : e = .outside ∨ e = .fault) :
    ¬ Safe (.error e : Except ReadError α) := by
  intro hsafe
  rcases h with rfl | rfl
  all_goals exact absurd (hsafe _ rfl) (by simp)

theorem safe_bind_iff {α β : Type} {r : Except ReadError α} {f : α → Except ReadError β} :
    Safe (r >>= f) ↔ Safe r ∧ ∀ a, r = .ok a → Safe (f a) := by
  cases r with
  | error e =>
    refine ⟨fun h => ⟨fun e' he => h e' ?_, fun a ha => ?_⟩, fun h e' he => h.1 e' ?_⟩
    · rw [Except.error.inj he]
      rfl
    · cases ha
    · rw [Except.error.inj he]
  | ok a =>
    refine ⟨fun h => ⟨safe_ok a, fun b hb => ?_⟩, fun h => h.2 a rfl⟩
    rw [← Except.ok.inj hb]
    exact h

theorem bind_eq_ok_iff {ε α β : Type} {r : Except ε α} {f : α → Except ε β} {b : β} :
    (r >>= f) = .ok b ↔ ∃ a, r = .ok a ∧ f a = .ok b := by
  cases r with
  | error e =>
    constructor
    · intro h
      cases h
    · rintro ⟨a, ha, -⟩
      cases ha
  | ok a =>
    constructor
    · exact fun h => ⟨a, rfl, h⟩
    · rintro ⟨a', ha, hb⟩
      cases ha
      exact hb

theorem mapError_eq_ok_iff {ε ε' α : Type} {r : Except ε α} {f : ε → ε'} {a : α} :
    r.mapError f = .ok a ↔ r = .ok a := by
  cases r with
  | error | ok => simp [Except.mapError]

/-- The bytes when the header of the cell `j` is read. -/
def bufAt (buf : List UInt8) : ℕ → List UInt8
  | 0 => buf
  | j + 1 =>
    let hdr := cellHdrAt (bufAt buf j) (20 + 31 * j)
    typed (bufAt buf j) hdr.off.toNat hdr.datalen hdr.type

def hdrOf (buf : List UInt8) (j : ℕ) : CellHdr := cellHdrAt (bufAt buf j) (20 + 31 * j)

/-- The place of the cell `j` is in the table, and no cell before it has this place. -/
structure Free (table : Table) (buf : List UInt8) (j : ℕ) : Prop where
  row : (hdrOf buf j).row ≤ table.hdr.nrows - 1
  col : (hdrOf buf j).col ≤ table.hdr.ncols - 1
  old : ∀ c ∈ table.cells, ¬ Cell.at c (hdrOf buf j).row (hdrOf buf j).col
  new : ∀ i < j, ¬ ((hdrOf buf i).row = (hdrOf buf j).row ∧ (hdrOf buf i).col = (hdrOf buf j).col)

structure ReadTo (table : Table) (buf : List UInt8) (j : ℕ) (st : List UInt8 × Table) : Prop where
  bytes : st.1 = bufAt buf j
  nrows : st.2.hdr.nrows = table.hdr.nrows
  ncols : st.2.hdr.ncols = table.hdr.ncols
  cells : ∀ row col, st.2.cells.any (Cell.at · row col) = true ↔ (∃ c ∈ table.cells, Cell.at c row col = true) ∨
    ∃ i < j, (hdrOf buf i).row = row ∧ (hdrOf buf i).col = col

theorem ReadTo.add {table : Table} {j : ℕ} {c : Cell} (h : ReadTo table buf j st) (hrow : c.hdr.row = (hdrOf buf j).row)
    (hcol : c.hdr.col = (hdrOf buf j).col) :
    (Free table buf j ∧ jtAddCell st.2 c = .ok (st.2.push c) ∧
        ReadTo table buf (j + 1) (bufAt buf (j + 1), (st.2.push c).setBack)) ∨
      (¬ Free table buf j ∧ ∃ e, jtAddCell st.2 c = .error e ∧ (e = .limit ∨ e = .exist)) := by
  unfold jtAddCell
  rw [h.nrows, h.ncols, hrow, hcol]
  by_cases hlimit : (hdrOf buf j).row > table.hdr.nrows - 1 ∨ (hdrOf buf j).col > table.hdr.ncols - 1
  · refine .inr ⟨fun hfree => ?_, .limit, if_pos hlimit, .inl rfl⟩
    exact hlimit.elim (UInt32.not_lt.2 hfree.row) (UInt32.not_lt.2 hfree.col)
  rw [if_neg hlimit]
  rw [not_or, gt_iff_lt, gt_iff_lt, UInt32.not_lt, UInt32.not_lt] at hlimit
  by_cases hexist : st.2.cells.any (Cell.at · (hdrOf buf j).row (hdrOf buf j).col) = true
  · refine .inr ⟨fun hfree => ?_, .exist, if_pos hexist, .inr rfl⟩
    rcases (h.cells _ _).1 hexist with ⟨c, hc, hat⟩ | ⟨i, hi, hplace⟩
    · exact hfree.old c hc hat
    · exact hfree.new i hi hplace
  refine .inl ⟨⟨hlimit.1, hlimit.2, fun c hc hat => ?_, fun i hi hplace => ?_⟩, if_neg hexist, rfl, h.nrows, h.ncols,
    fun row col => ?_⟩
  · exact hexist ((h.cells _ _).2 (.inl ⟨c, hc, hat⟩))
  · exact hexist ((h.cells _ _).2 (.inr ⟨i, hi, hplace⟩))
  · have hnew : Cell.at (c.setId st.2.hdr.lastCellId) row col = true ↔
        (hdrOf buf j).row = row ∧ (hdrOf buf j).col = col := by
      simp only [Cell.at, Cell.setId, hrow, hcol, decide_eq_true_eq]
      exact and_congr eq_comm eq_comm
    simp only [Table.setBack, Table.push, List.any_append, Bool.or_eq_true, h.cells, List.any_cons, List.any_nil,
      Bool.or_false, hnew, Nat.lt_succ_iff_lt_or_eq, or_and_right, exists_or, exists_eq_left, or_assoc]

theorem ReadTo.readCellIn {table : Table} {j : ℕ} (env : Env) (h : ReadTo table buf j st)
    (hinside : CellInside w (bufAt buf j) (20 + 31 * j)) :
    (Free table buf j ∧ ∃ st', readCellIn w env (20 + 31 * j) st = .ok st' ∧ ReadTo table buf (j + 1) st') ∨
      (¬ Free table buf j ∧ ∃ e, readCellIn w env (20 + 31 * j) st = .error e ∧ (e = .limit ∨ e = .exist)) := by
  obtain ⟨hpos, hparts⟩ := hinside
  obtain ⟨c, hc, hrow, hcol⟩ : ∃ c, createCellIn w env (bufAt buf j) _ _ _ _ _ (.ofNat (hdrOf buf j).mergeDir.val) _ _ =
      .ok (c, bufAt buf (j + 1)) ∧ c.hdr.row = (hdrOf buf j).row ∧ c.hdr.col = (hdrOf buf j).col :=
    ((createCellIn_cases w env ..).resolve_right fun hnot => hnot.1 hparts).2
  unfold Jtable.readCellIn
  rw [h.bytes, if_pos hpos]
  dsimp only
  rcases h.add hrow hcol with ⟨hfree, hadd, hread⟩ | ⟨hfree, e, hadd, herror⟩
  · refine .inl ⟨hfree, _, ?_, hread⟩
    rw [hdrOf] at hc
    simp only [hc, hadd, bind, Except.bind, Except.mapError]
  · refine .inr ⟨hfree, e.toRead, ?_, ?_⟩
    · rw [hdrOf] at hc
      simp only [hc, hadd, bind, Except.bind, Except.mapError]
    · rcases herror with rfl | rfl
      · exact .inl rfl
      · exact .inr rfl

theorem not_safe_readCellIn (h : ¬ CellInside w st.1 pos) : ¬ Safe (readCellIn w env pos st) := by
  unfold readCellIn
  by_cases hpos : pos + 31 ≤ st.1.length
  · obtain ⟨-, e, he, herror⟩ := (createCellIn_cases w env st.1 (cellHdrAt st.1 pos).off.toNat
      (cellHdrAt st.1 pos).datalen (cellHdrAt st.1 pos).clen (cellHdrAt st.1 pos).fdatalen (cellHdrAt st.1 pos).type
      (.ofNat (cellHdrAt st.1 pos).mergeDir.val) (cellHdrAt st.1 pos).row (cellHdrAt st.1 pos).col).resolve_left
        fun hin => h ⟨hpos, hin.1⟩
    simp only [if_pos hpos, he, bind, Except.bind]
    exact not_safe_error herror
  · rw [if_neg hpos]
    exact not_safe_error (.inl rfl)

theorem ReadTo.safe_iff {table : Table} (n : ℕ) {k : ℕ} (h : ReadTo table buf k st) :
    Safe (readCellsIn w envs n k (20 + 31 * k) st) ↔
      ∀ j, k ≤ j → j < k + n → (∀ i, k ≤ i → i < j → Free table buf i) → CellInside w (bufAt buf j) (20 + 31 * j) := by
  induction n generalizing k st with
  | zero => exact iff_of_true (safe_ok st) fun j hk hj => by omega
  | succ n ih =>
    rw [readCellsIn, safe_bind_iff]
    by_cases hinside : CellInside w (bufAt buf k) (20 + 31 * k)
    swap
    · refine iff_of_false (fun hsafe => not_safe_readCellIn (h.bytes ▸ hinside) hsafe.1) fun hall => ?_
      exact hinside (hall k le_rfl (by omega) fun i hk hi => by omega)
    rcases h.readCellIn (envs k) hinside with ⟨hfree, st', hst', hread⟩ | ⟨hfree, e, he, herror⟩
    · have hrest : Safe (readCellsIn w envs n (k + 1) (20 + 31 * k + 31) st') ↔ _ := ih hread
      simp only [hst', safe_ok, true_and, Except.ok.injEq, forall_eq', hrest]
      constructor
      · intro hall j hk hj hbefore
        rcases hk.eq_or_lt with rfl | hk
        · exact hinside
        · exact hall j hk (by omega) fun i hi => hbefore i (by omega)
      · intro hall j hk hj hbefore
        refine hall j (by omega) (by omega) fun i hi hij => ?_
        rcases hi.eq_or_lt with rfl | hi
        · exact hfree
        · exact hbefore i hi hij
    · rw [he]
      refine iff_of_true ⟨fun e' he' => Except.error.inj he' ▸ herror, fun a ha => by cases ha⟩ ?_
      intro j hk hj hbefore
      rcases hk.eq_or_lt with rfl | hk
      · exact hinside
      · exact absurd (hbefore k le_rfl hk) hfree

end Safety

/-! The buffer as a part of the memory, for a table none of whose texts is searched for its type. -/

section Memory
variable {mem : ℕ → UInt8} {w : Wchar} {env : Env} {envs : ℕ → Env} {buf : List UInt8} {pos off : ℕ} {n : UInt32}
  {table : Table} {st : List UInt8 × Table}

def DetectsAt (buf : List UInt8) (pos : ℕ) : Prop :=
  Detects (cellHdrAt buf pos).type ((buf.drop (cellHdrAt buf pos).off.toNat).take (cellHdrAt buf pos).datalen.toNat)

variable (hmem : fetch mem 0 buf.length = buf)
include hmem

theorem take_drop_eq_fetch {n : ℕ} (hle : off + n ≤ buf.length) : (buf.drop off).take n = fetch mem off n := by
  obtain ⟨k, hk⟩ := Nat.exists_eq_add_of_le hle
  rw [← hmem, hk, Nat.add_assoc, fetch_add, List.drop_left' (length_fetch ..), Nat.zero_add, fetch_add,
    List.take_left' (length_fetch ..)]

theorem eq_load_of_partAt {b : Blob} (h : partAt buf off n = .ok b) :
    b = .load mem off n ∧ b.bytes = (buf.drop off).take n.toNat := by
  unfold partAt at h
  split_ifs at h with hin
  cases h
  refine ⟨?_, rfl⟩
  rw [Blob.load, Blob.mk.injEq]
  rcases hin with rfl | hle
  · rfl
  · exact take_drop_eq_fetch hmem hle

theorem readCell_of_readCellIn (hlen : buf.length < 2 ^ 32) (hno : ¬ DetectsAt buf pos)
    (h : readCellIn w env pos (buf, table) = .ok st) : st.1 = buf ∧ ∃ cell table', readCell mem env (.ofNat pos) =
      .ok cell ∧ jtAddCell table cell = .ok table' ∧ st.2 = table'.setBack := by
  unfold readCellIn at h
  split_ifs at h with hpos
  dsimp only at hpos
  obtain ⟨r, hr, h⟩ := bind_eq_ok_iff.1 h
  obtain ⟨table', hadd, h⟩ := bind_eq_ok_iff.1 h
  obtain ⟨comments, hcomments, hr⟩ := bind_eq_ok_iff.1 hr
  obtain ⟨data, hdata, hr⟩ := bind_eq_ok_iff.1 hr
  obtain ⟨format, hformat, hr⟩ := bind_eq_ok_iff.1 hr
  obtain ⟨found, hfound, hr⟩ := bind_eq_ok_iff.1 hr
  obtain ⟨cell, hcell, hr⟩ := bind_eq_ok_iff.1 hr
  cases h
  cases hr
  obtain ⟨rfl, hbytes⟩ := eq_load_of_partAt hmem hdata
  obtain ⟨rfl, -⟩ := eq_load_of_partAt hmem hcomments
  obtain ⟨rfl, -⟩ := eq_load_of_partAt hmem hformat
  unfold DetectsAt at hno
  rw [detectIn, hbytes] at hfound
  rw [if_neg hno] at hfound
  cases hfound
  have hnat : (UInt32.ofNat pos).toNat = pos := UInt32.toNat_ofNat_of_lt' (by unfold UInt32.size; omega)
  have hhdr : CellHdr.ofBytes (fetch mem pos 31) = cellHdrAt buf pos := by
    rw [cellHdrAt, take_drop_eq_fetch hmem hpos]
  refine ⟨rfl, cell, table', ?_, mapError_eq_ok_iff.1 hadd, rfl⟩
  simp only [readCell, hnat, hhdr]
  exact mapError_eq_ok_iff.1 hcell

theorem readCells_of_readCellsIn {n : ℕ} (k : ℕ) (hlen : buf.length < 2 ^ 32)
    (hno : ∀ j < n, ¬ DetectsAt buf (pos + 31 * j)) (h : readCellsIn w envs n k pos (buf, table) = .ok st) :
    readCells mem n (fun i => envs (k + i)) (.ofNat pos) table = .ok st.2 := by
  induction n generalizing k pos table with
  | zero =>
    cases h
    rfl
  | succ n ih =>
    obtain ⟨⟨buf', table'⟩, hst, hrest⟩ := bind_eq_ok_iff.1 h
    obtain ⟨rfl, cell, added, hcell, hadd, rfl⟩ := readCell_of_readCellIn hmem hlen (hno 0 (Nat.succ_pos n)) hst
    have hnext : ∀ j < n, ¬ DetectsAt buf' (pos + 31 + 31 * j) := by
      intro j hj
      rw [show pos + 31 + 31 * j = pos + 31 * (j + 1) by omega]
      exact hno (j + 1) (by omega)
    have hread := ih (k + 1) hnext hrest
    rw [UInt32.ofNat_add] at hread
    rw [Nat.mul_zero, Nat.add_zero] at hcell
    rw [readCells, Nat.add_zero, hcell]
    simp only [bind, Except.bind, hadd]
    simp only [Nat.add_assoc, Nat.add_comm 1] at hread
    exact hread

omit hmem in
/-- A table that is read inside of its buffer is the one that is read from memory. -/
theorem jtBufToTable_of_bufToTable {b : Blob} {table' : Table} (hmem : fetch mem 0 b.bytes.length = b.bytes)
    (hno : ∀ j < (TableHdr.ofBytes (b.bytes.take 20)).ncells.toNat, ¬ DetectsAt b.bytes (20 + 31 * j))
    (h : bufToTable w envs table b = .ok table') : jtBufToTable envs table mem = .ok table' := by
  unfold bufToTable at h
  split_ifs at h with hlen
  obtain ⟨st, hst, h⟩ := bind_eq_ok_iff.1 h
  cases h
  have hhdr : fetch mem 0 20 = b.bytes.take 20 := by
    rw [← take_drop_eq_fetch hmem (by omega), List.drop_zero]
  have hread := readCells_of_readCellsIn hmem 0 b.length_lt hno hst
  simp only [Nat.zero_add] at hread
  rw [jtBufToTable, hhdr]
  exact hread

end Memory

section Main
/-- `jt_buf_to_table` never looks at the length of the buffer: it stays inside if and only if the header of the table,
and the header and the parts of every cell up to the first that has no free place, are inside. -/
theorem bufToTable_safe_iff (w : Wchar) (envs : ℕ → Env) (table : Table) (buf : Blob) :
    Safe (bufToTable w envs table buf) ↔ 20 ≤ buf.bytes.length ∧
      ∀ j < (TableHdr.ofBytes (buf.bytes.take 20)).ncells.toNat,
        (∀ i < j, Free { table with hdr := TableHdr.ofBytes (buf.bytes.take 20) } buf.bytes i) →
          CellInside w (bufAt buf.bytes j) (20 + 31 * j) := by
  unfold bufToTable
  by_cases hlen : 20 ≤ buf.bytes.length
  · have hread : ReadTo { table with hdr := TableHdr.ofBytes (buf.bytes.take 20) } buf.bytes 0
        (buf.bytes, { table with hdr := TableHdr.ofBytes (buf.bytes.take 20) }) := ⟨rfl, rfl, rfl, by simp⟩
    have hcells : Safe (readCellsIn w envs _ 0 20 _) ↔ _ :=
      hread.safe_iff (TableHdr.ofBytes (buf.bytes.take 20)).ncells.toNat
    simp only [hlen, if_true, true_and, safe_bind_iff, safe_ok, implies_true, and_true, hcells, Nat.zero_le,
      Nat.zero_add, forall_const]
  · simp only [hlen, if_false, false_and, iff_false]
    exact not_safe_error (.inl rfl)

def truncated : Blob := ⟨[0, 0, 0, 0, 1, 0, 0, 0, 1, 0, 0, 0, 0, 0, 0, 0, 1, 0, 0, 0], by decide⟩

theorem not_safe_truncated : ¬ Safe (bufToTable ⟨4, by decide, fun _ => 0⟩ (fun _ => ⟨0, 0, 0, 0, .raw⟩)
    ⟨⟨0, 0, 0, 0, 0⟩, []⟩ truncated) :=
  not_safe_error (.inl rfl)

end Main
end Prj.Jlib.Jtable
