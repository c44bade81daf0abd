import Mathlib.Data.List.GetD
import Mathlib.Data.List.TakeWhile
import Prj.Base.Search
import Prj.Lib13.Pack

/-! Joining and exploding delimited strings (`lib13/str13.c`). A buffer is a list of bytes and a
pointer an index into it; a loop takes fuel and gives `none` when that runs out. `none` is also the
result of a read outside the buffer. `strcpy` on overlapping text is taken to move it as a whole. -/
namespace Prj.Lib13
open Prj.Base

def cstr (m : List UInt8) (p : ℕ) : List UInt8 := (m.drop p).takeWhile (· ≠ 0)

def strstr (m : List UInt8) (p : ℕ) (d : List UInt8) : Option ℕ :=
  (cut d (cstr m p)).map fun uv => p + uv.1.length

/-- `memset(m + p, 0, n)`. -/
def memset0 (m : List UInt8) (p n : ℕ) : List UInt8 :=
  m.take p ++ List.replicate n 0 ++ m.drop (p + n)

/-- `strcpy(m + p - 1, m + p)`: the string at `p` and its NUL move one place to the left. -/
def strcpyBack (m : List UInt8) (p : ℕ) : List UInt8 :=
  m.take (p - 1) ++ cstr m p ++ [0] ++ m.drop (p + (cstr m p).length)

/-- `memcmp(m + p, w, strlen(w)) == 0`. -/
def matchAt (m : List UInt8) (p : ℕ) (w : List UInt8) : Bool := (m.drop p).take w.length == w

/-- The loop of `_s13_restore_escapes`: `before` is the text up to `needle`, `text` the rest. -/
def restoreEscapes (delim : List UInt8) (escape : UInt8) : ℕ → List UInt8 → List UInt8 → Option (List UInt8)
  | 0, _, _ => none
  | fuel + 1, before, text =>
    match cut delim text with
    | none => some (before ++ text)
    | some (u, v) =>
      -- `strcpy(needle + 1, needle); *needle = escape;` and the search goes on from `needle`
      restoreEscapes delim escape fuel (before ++ u) (if escape = 0 then [] else escape :: (delim ++ v))

/-- The loop that counts the escapes of one element: `needle++; bufsize++;` at each occurrence. -/
def countEscapes (delim : List UInt8) : ℕ → List UInt8 → ℕ → Option ℕ
  | 0, _, _ => none
  | fuel + 1, text, n =>
    match cut delim text with
    | none => some n
    | some (_, v) =>
      match delim ++ v with
      | [] => none
      | _ :: text => countEscapes delim fuel text (n + 1)

/-- What one element adds to `bufsize`. -/
def elementSize (fuel : ℕ) (delim : CStr) (escape : UInt8) (a : CStr) : Option ℕ :=
  let size := a.bytes.length + delim.bytes.length
  if escape = 0 then some size else countEscapes delim.bytes fuel a.bytes size

/-- One round of the loop that writes the elements after the first. -/
def joinStep (fuel : ℕ) (delim : CStr) (escape : UInt8) (buf : List UInt8) (a : CStr) : Option (List UInt8) :=
  (restoreEscapes delim.bytes escape fuel [] a.bytes).map fun text => buf ++ delim.bytes ++ text

/-- `s13_join_array`: the text and the size allocated for it, when `malloc` succeeds. -/
def s13JoinArray (fuel : ℕ) (array : List CStr) (delim : CStr) (escape : UInt8) : Option (List UInt8 × ℕ) := do
  let sizes ← array.mapM (elementSize fuel delim escape)
  match array with
  | [] => none
  | a :: array =>
    let buf ← restoreEscapes delim.bytes escape fuel [] a.bytes
    let buf ← array.foldlM (joinStep fuel delim escape) buf
    return (buf, sizes.sum + 1)

/-- `_s13_fix_last_delim`. -/
def fixLastDelim (m : List UInt8) (slen : ℕ) (delim : List UInt8) (escape : UInt8) : Option (List UInt8) :=
  let dlen := delim.length
  if slen < dlen then none
  else if matchAt m (slen - dlen) delim then
    if slen = dlen then none
    else if m.getD (slen - dlen - 1) 0 ≠ escape then some (memset0 m (slen - dlen) dlen)
    else some m
  else some m

/-- The variables of `s13_explode`; `ary` holds the pointers `ary[0] .. ary[i]`. -/
structure XState where
  m : List UInt8
  tmp : ℕ
  ary : List ℕ
  needle : Option (List UInt8)

/-- One round of a loop: `break`, the next round, or no result. -/
inductive Round
  | stop
  | go (st : XState)
  | stuck

/-- The loop over `pack[j]`; `packs` is the array from `j` on. -/
def packScan (escape : UInt8) : ℕ → List (List UInt8) → XState → Round
  | 0, _, _ => .stuck
  | _ + 1, [], st => .go st
  | fuel + 1, w :: packs, st =>
    if matchAt st.m st.tmp w then
      if st.m.getD (st.tmp - 1) 0 = escape then
        packScan escape fuel (w :: packs) { st with m := strcpyBack st.m st.tmp, tmp := st.tmp + w.length }
      else .go { st with needle := some w, tmp := st.tmp + w.length }
    else packScan escape fuel packs st

/-- One round of the loop of `s13_explode`. -/
def explodeStep (fuel : ℕ) (delim : List UInt8) (pack : Option (List (List UInt8)))
    (escape : UInt8) (st : XState) : Round :=
  match st.needle with
  | none =>
    match strstr st.m st.tmp delim with
    | none => .stop
    | some tmp =>
      if escape ≠ 0 ∧ tmp > 0 ∧ st.m.getD (tmp - 1) 0 = escape then
        .go { st with m := strcpyBack st.m tmp, tmp := tmp + delim.length }
      else
        let st := { st with m := memset0 st.m tmp delim.length, tmp := tmp + delim.length }
        match packScan escape fuel (pack.getD []) st with
        | .go st => .go { st with ary := st.ary ++ [st.tmp] }
        | r => r
  | some needle =>
    match strstr st.m st.tmp needle with
    | none => .stop
    | some tmp =>
      if escape ≠ 0 ∧ st.m.getD (tmp - 1) 0 = escape then
        .go { st with m := strcpyBack st.m tmp, tmp := tmp + needle.length }
      else if matchAt st.m (tmp + needle.length) delim then
        .go { st with
          m := memset0 st.m tmp needle.length, tmp := tmp + needle.length, needle := none }
      else .go { st with tmp := tmp + needle.length }

def explodeLoop (delim : List UInt8) (pack : Option (List (List UInt8))) (escape : UInt8) : ℕ → XState → Option XState
  | 0, _ => none
  | fuel + 1, st =>
    match explodeStep fuel delim pack escape st with
    | .stop => some st
    | .go st => explodeLoop delim pack escape fuel st
    | .stuck => none

/-- `s13_explode` on the buffer `m`: the strings that `ary` points to at the end. -/
def s13Explode (fuel : ℕ) (m : List UInt8) (delim : CStr) (pack : Option (List (List UInt8)))
    (escape : UInt8) : Option (List (List UInt8)) := do
  let m ← fixLastDelim m (cstr m 0).length delim.bytes escape
  let st ← explodeLoop delim.bytes pack escape fuel ⟨m, 0, [0], none⟩
  return st.ary.map (cstr st.m)

/-! `s13_explode` without packs, as a function on lists: the buffer with its pointers refines `splitEsc`. -/

open List Option

/-- The elements of a text and how many escapes were removed: `cur` is the part of the current
element that has been searched, `rest` the text still to search. -/
def splitEsc (d : List UInt8) (e : UInt8) : ℕ → List UInt8 → List UInt8 → Option (List (List UInt8) × ℕ)
  | 0, _, _ => none
  | fuel + 1, cur, rest =>
    match cut d rest with
    | none => some ([cur ++ rest], 0)
    | some (u, v) =>
      if e ≠ 0 ∧ (cur ++ u).getLast? = some e then
        -- the text moved left under `tmp`, which now stands one byte behind the delimiter
        (splitEsc d e fuel ((cur ++ u).dropLast ++ d ++ v.take 1) (v.drop 1)).map fun r => (r.1, r.2 + 1)
      else (splitEsc d e fuel [] v).map fun r => ((cur ++ u) :: r.1, r.2)

theorem cstr_append {pre : List UInt8} {p : ℕ} (h : 0 ∈ pre.drop p) (x : List UInt8) :
    cstr (pre ++ x) p = cstr pre p := by
  have hle : p ≤ pre.length := by
    by_contra hlt
    rw [drop_eq_nil_of_le (by omega)] at h
    simp at h
  unfold cstr
  rw [drop_append_of_le_length hle, takeWhile_append, if_neg]
  intro hlen
  have hall := (takeWhile_sublist _).eq_of_length hlen
  rw [← hall] at h
  simpa using mem_takeWhile_imp h

theorem cstr_length_append {w : List UInt8} (hw : 0 ∉ w) (pre x : List UInt8) :
    cstr (pre ++ (w ++ 0 :: x)) pre.length = w := by
  unfold cstr
  rw [drop_left, takeWhile_append_of_pos]
  · simp
  · intro a ha
    simpa using fun h : a = 0 => hw (h ▸ ha)

theorem strcpyBack_append (a j : List UInt8) (x : UInt8) {w : List UInt8} (hw : 0 ∉ w) :
    strcpyBack (a ++ x :: (w ++ 0 :: j)) (a.length + 1) = a ++ (w ++ 0 :: 0 :: j) := by
  have hlen : (a ++ [x]).length = a.length + 1 := by simp
  have happ : a ++ x :: (w ++ 0 :: j) = (a ++ [x]) ++ (w ++ 0 :: j) := by simp
  have hcstr : cstr (a ++ x :: (w ++ 0 :: j)) (a.length + 1) = w := by
    rw [happ, ← hlen, cstr_length_append hw]
  have hdrop : (a ++ x :: (w ++ 0 :: j)).drop (a.length + 1 + w.length) = 0 :: j := by
    rw [happ, ← hlen, ← length_append, ← append_assoc, drop_left]
  rw [strcpyBack, hcstr, hdrop, Nat.add_sub_cancel]
  simp

theorem memset0_append (a w j : List UInt8) :
    memset0 (a ++ (w ++ j)) a.length w.length = a ++ (List.replicate w.length 0 ++ j) := by
  have hdrop : (a ++ (w ++ j)).drop (a.length + w.length) = j := by
    rw [← length_append, ← append_assoc, drop_left]
  rw [memset0, hdrop, take_left, append_assoc]

/-- The buffer behind a call of `splitEsc`: `pre` holds the finished elements, each with its NUL, and
`ptrs` the pointers to them. After an escape before the end `tmp` may stand one past the text. -/
structure Refines (st : XState) (pre cur rest : List UInt8) (ptrs : List ℕ) : Prop where
  buffer : ∃ junk, st.m = pre ++ (cur ++ (rest ++ 0 :: junk))
  ary : st.ary = ptrs ++ [pre.length]
  needle : st.needle = none
  text : cstr st.m st.tmp = rest
  tmp : rest ≠ [] → st.tmp = pre.length + cur.length
  pre_end : pre ≠ [] → pre.getLast? = some 0
  ptrs_mem : ∀ p ∈ ptrs, 0 ∈ pre.drop p
  cur_nul : 0 ∉ cur
  rest_nul : 0 ∉ rest

section
variable {d : List UInt8} {e : UInt8} {st : XState} {pre cur rest u v : List UInt8} {ptrs : List ℕ}

theorem Refines.escaped_iff (h : Refines st pre cur rest ptrs) (hc : cut d rest = some (u, v))
    (he : e ≠ 0) (T : ℕ) (hT : T = pre.length + cur.length + u.length) :
    T > 0 ∧ st.m.getD (T - 1) 0 = e ↔ (cur ++ u).getLast? = some e := by
  obtain ⟨junk, hm⟩ := h.buffer
  have hrest := cut_append hc
  have hm' : st.m = pre ++ ((cur ++ u) ++ (d ++ (v ++ 0 :: junk))) := by
    rw [hm, hrest]
    simp
  rcases eq_nil_or_concat (cur ++ u) with hnil | ⟨w, x, hw⟩
  · have hlen : cur.length + u.length = 0 := by
      rw [← length_append, hnil]
      rfl
    rw [hnil]
    simp only [getLast?_nil, reduceCtorEq, iff_false, not_and]
    intro hpos
    have hne : pre ≠ [] := by
      rintro rfl
      simp at hT
      omega
    obtain ⟨w, hw⟩ := getLast?_eq_some_iff.1 (h.pre_end hne)
    have hidx : T - 1 = w.length := by
      rw [hw] at hT
      simp at hT
      omega
    rw [hm', hw, hidx]
    simpa [getD_append_right] using fun h : (0 : UInt8) = e => he h.symm
  · rw [hw] at hm' ⊢
    have hlen : cur.length + u.length = w.length + 1 := by
      rw [← length_append, hw]
      simp
    have hidx : T - 1 = pre.length + w.length := by omega
    rw [hm', hidx]
    simp
    omega

theorem cut_ne_nil (hd : d ≠ []) (hc : cut d rest = some (u, v)) : rest ≠ [] := by
  have hrest := cut_append hc
  rintro rfl
  simp [hd] at hrest

section
variable (h : Refines st pre cur rest ptrs) (hd : d ≠ []) (hc : cut d rest = some (u, v))
include h hd hc

theorem Refines.escape (hlast : (cur ++ u).getLast? = some e) :
    Refines { st with m := strcpyBack st.m (st.tmp + u.length), tmp := st.tmp + u.length + d.length }
      pre ((cur ++ u).dropLast ++ d ++ v.take 1) (v.drop 1) ptrs := by
  obtain ⟨junk, hm⟩ := h.buffer
  have hrest := cut_append hc
  have htmp := h.tmp (cut_ne_nil hd hc)
  obtain ⟨w, hw⟩ := getLast?_eq_some_iff.1 hlast
  have hT : st.tmp + u.length = (pre ++ w).length + 1 := by
    have hlen := congrArg List.length hw
    simp at hlen ⊢
    omega
  have hnul : 0 ∉ d ++ v := fun h0 => h.rest_nul (hrest ▸ mem_append_right u h0)
  have hcur : 0 ∉ w := fun h0 => by
    have hmem : 0 ∈ cur ++ u := hw ▸ mem_append_left _ h0
    rcases mem_append.1 hmem with h1 | h1
    · exact h.cur_nul h1
    · exact h.rest_nul (hrest ▸ mem_append_left _ h1)
  have hm' : st.m = (pre ++ w) ++ e :: ((d ++ v) ++ 0 :: junk) := by
    rw [hm, hrest, show cur ++ (u ++ (d ++ v) ++ 0 :: junk) = (cur ++ u) ++ ((d ++ v) ++ 0 :: junk) by simp, hw]
    simp
  have hback : strcpyBack st.m (st.tmp + u.length) = (pre ++ w) ++ ((d ++ v) ++ 0 :: 0 :: junk) := by
    rw [hT, hm', strcpyBack_append _ _ _ hnul]
  have hdl : (cur ++ u).dropLast = w := by rw [hw]; simp
  rw [hdl, hback, hT]
  simp only [mem_append, not_or] at hnul
  have htext : cstr ((pre ++ w) ++ ((d ++ v) ++ 0 :: 0 :: junk)) ((pre ++ w).length + 1 + d.length) = v.drop 1 := by
    cases v with
    | nil =>
      -- `tmp` stands on the old NUL
      have := cstr_length_append (w := []) (by simp) ((pre ++ w) ++ d ++ [0]) junk
      simpa [Nat.add_comm, Nat.add_left_comm, Nat.add_assoc] using this
    | cons x v =>
      have := cstr_length_append (w := v) (by tauto) ((pre ++ w) ++ d ++ [x]) (0 :: junk)
      simpa [Nat.add_comm, Nat.add_left_comm, Nat.add_assoc] using this
  refine ⟨⟨0 :: junk, ?_⟩, h.ary, h.needle, htext, ?_, h.pre_end, h.ptrs_mem, ?_, ?_⟩
  · have : v = v.take 1 ++ v.drop 1 := (take_append_drop 1 v).symm
    nth_rewrite 1 [this]
    simp
  · intro hne
    have hv : v.length ≥ 1 := by
      rcases v with _ | ⟨x, v⟩
      · simp at hne
      · simp
    simp
    omega
  · simp only [mem_append, not_or]
    exact ⟨⟨hcur, hnul.1⟩, fun h0 => hnul.2 (mem_of_mem_take h0)⟩
  · exact fun h0 => hnul.2 (mem_of_mem_drop h0)

theorem Refines.split : Refines { st with
        m := memset0 st.m (st.tmp + u.length) d.length
        tmp := st.tmp + u.length + d.length
        ary := st.ary ++ [st.tmp + u.length + d.length] }
      (pre ++ (cur ++ u) ++ List.replicate d.length 0) [] v (ptrs ++ [pre.length]) := by
  obtain ⟨junk, hm⟩ := h.buffer
  have hrest := cut_append hc
  have htmp := h.tmp (cut_ne_nil hd hc)
  have hdpos := length_pos_iff.2 hd
  have hT : st.tmp + u.length = (pre ++ (cur ++ u)).length := by simp; omega
  have hm' : st.m = (pre ++ (cur ++ u)) ++ (d ++ (v ++ 0 :: junk)) := by
    rw [hm, hrest]
    simp
  have hnul : 0 ∉ v := fun h0 => h.rest_nul (hrest ▸ by simp [h0])
  have hset : memset0 st.m (st.tmp + u.length) d.length =
      (pre ++ (cur ++ u) ++ List.replicate d.length 0) ++ (v ++ 0 :: junk) := by
    rw [hT, hm', memset0_append, append_assoc _ (List.replicate _ _)]
  have hlen : (pre ++ (cur ++ u) ++ List.replicate d.length (0 : UInt8)).length = st.tmp + u.length + d.length := by
    simp
    omega
  rw [hset, ← hlen]
  refine ⟨⟨junk, rfl⟩, by rw [h.ary], h.needle, cstr_length_append hnul _ _, fun _ => rfl, ?_, ?_, by simp, hnul⟩
  · intro _
    obtain ⟨n, hn⟩ := Nat.exists_eq_add_of_le hdpos
    rw [hn, Nat.add_comm, replicate_succ', ← append_assoc, getLast?_concat]
  · intro p hp
    rcases mem_append.1 hp with hp | hp
    · have hmem := h.ptrs_mem p hp
      have hle : p ≤ pre.length := by
        by_contra hlt
        rw [drop_eq_nil_of_le (by omega)] at hmem
        simp at hmem
      rw [append_assoc, drop_append_of_le_length hle]
      exact mem_append_left _ hmem
    · obtain rfl : p = pre.length := by simpa using hp
      rw [append_assoc, drop_left]
      exact mem_append_right _ (mem_replicate.2 ⟨hdpos.ne', rfl⟩)

end

theorem Refines.map_cstr (h : Refines st pre cur rest ptrs) (hu : 0 ∉ u) (junk : List UInt8) :
    (ptrs ++ [pre.length]).map (cstr (pre ++ (cur ++ u ++ 0 :: junk))) = ptrs.map (cstr pre) ++ [cur ++ u] := by
  have hnul : 0 ∉ cur ++ u := by
    rw [mem_append, not_or]
    exact ⟨h.cur_nul, hu⟩
  rw [map_append, map_singleton, cstr_length_append hnul]
  congr 1
  exact map_congr_left fun p hp => cstr_append (h.ptrs_mem p hp) _

theorem Refines.strings (h : Refines st pre cur rest ptrs) :
    st.ary.map (cstr st.m) = ptrs.map (cstr pre) ++ [cur ++ rest] := by
  obtain ⟨junk, hm⟩ := h.buffer
  rw [h.ary, hm, ← append_assoc cur]
  exact h.map_cstr h.rest_nul junk

theorem map_cstr_pre (hd : d ≠ []) (h : Refines st pre cur rest ptrs) (hc : cut d rest = some (u, v)) :
    (ptrs ++ [pre.length]).map (cstr (pre ++ (cur ++ u) ++ List.replicate d.length 0)) =
      ptrs.map (cstr pre) ++ [cur ++ u] := by
  obtain ⟨n, hn⟩ := Nat.exists_eq_add_of_le (length_pos_iff.2 hd)
  rw [append_assoc, hn, Nat.add_comm 1, replicate_succ]
  exact h.map_cstr (fun h0 => h.rest_nul (cut_append hc ▸ mem_append_left _ h0)) _

/-- The loop of `s13_explode` without packs computes `splitEsc`. -/
theorem explodeLoop_eq (hd : d ≠ []) (fuel : ℕ) (h : Refines st pre cur rest ptrs) :
    (explodeLoop d none e fuel st).map (fun s => s.ary.map (cstr s.m)) =
      (splitEsc d e fuel cur rest).map fun r => ptrs.map (cstr pre) ++ r.1 := by
  induction fuel generalizing st pre cur rest ptrs with
  | zero => rfl
  | succ fuel ih =>
    rw [explodeLoop, splitEsc, explodeStep, h.needle, strstr, h.text]
    cases hc : cut d rest with
    | none => simp [h.strings]
    | some uv =>
      obtain ⟨u, v⟩ := uv
      have htmp := h.tmp (cut_ne_nil hd hc)
      have hesc (he : e ≠ 0) := h.escaped_iff hc he (st.tmp + u.length) (by omega)
      simp only [map_some]
      by_cases hcond : e ≠ 0 ∧ (cur ++ u).getLast? = some e
      · rw [if_pos hcond, if_pos ⟨hcond.1, (hesc hcond.1).2 hcond.2⟩]
        have hrec := ih (h.escape hd hc hcond.2)
        simp only [h.needle] at hrec
        simp only [hrec, Option.map_map]
        rfl
      · rw [if_neg hcond, if_neg (fun hx => hcond ⟨hx.1, (hesc hx.1).1 hx.2⟩)]
        cases fuel with
        | zero => rfl
        | succ fuel =>
          have hrec := ih (h.split hd hc)
          simp only [h.needle] at hrec
          simp only [Option.getD_none, packScan, hrec, map_cstr_pre hd h hc, Option.map_map]
          simp [Function.comp_def]
end

section
variable {d : CStr} {e : UInt8} {J w text : List UInt8}

theorem matchAt_end (hle : d.bytes.length ≤ J.length) :
    matchAt (J ++ [0]) (J.length - d.bytes.length) d.bytes = true ↔ d.bytes <:+ J := by
  rw [matchAt, beq_iff_eq, drop_append_of_le_length (by omega),
    take_append_of_le_length (by simp; omega), take_of_length_le (by simp; omega),
    suffix_iff_eq_drop]
  exact eq_comm

theorem refines_init (junk : List UInt8) (ht : 0 ∉ text) : Refines ⟨text ++ 0 :: junk, 0, [0], none⟩ [] [] text [] :=
  ⟨⟨junk, rfl⟩, rfl, rfl, cstr_length_append ht [] junk, fun _ => rfl, by simp, by simp, by simp, ht⟩

theorem cstr_concat_nul (hJ : 0 ∉ J) : cstr (J ++ [0]) 0 = J := cstr_length_append hJ [] []

theorem s13Explode_of_fix (junk : List UInt8) (fuel : ℕ) (hd : d.bytes ≠ []) (hJ : 0 ∉ J) (ht : 0 ∉ text)
    (hfix : fixLastDelim (J ++ [0]) J.length d.bytes e = some (text ++ 0 :: junk)) :
    s13Explode fuel (J ++ [0]) d none e = (splitEsc d.bytes e fuel [] text).map Prod.fst := by
  have hloop := explodeLoop_eq (e := e) hd fuel (refines_init junk ht)
  simp only [map_nil, nil_append] at hloop
  rw [s13Explode, cstr_concat_nul hJ, hfix, ← hloop, map_eq_bind]
  rfl

theorem fixLastDelim_eq (hle : d.bytes.length ≤ J.length) :
    fixLastDelim (J ++ [0]) J.length d.bytes e = if d.bytes <:+ J then
        if J.length = d.bytes.length then none else if (J ++ [0]).getD (J.length - d.bytes.length - 1) 0 ≠ e then
          some (memset0 (J ++ [0]) (J.length - d.bytes.length) d.bytes.length) else some (J ++ [0])
      else some (J ++ [0]) := by
  unfold fixLastDelim
  rw [if_neg (by omega)]
  simp only [matchAt_end hle]

theorem getD_before (w j : List UInt8) (hw : w ≠ []) : (w ++ j).getD (w.length - 1) 0 = e ↔ w.getLast? = some e := by
  obtain ⟨w', x, rfl⟩ := eq_nil_or_concat w |>.resolve_left hw
  simp

theorem s13Explode_whole (fuel : ℕ) (hd : d.bytes ≠ []) (hJ : 0 ∉ J)
    (hle : d.bytes.length ≤ J.length) (hend : ∀ w, J = w ++ d.bytes → w.getLast? = some e) :
    s13Explode fuel (J ++ [0]) d none e = (splitEsc d.bytes e fuel [] J).map Prod.fst := by
  refine s13Explode_of_fix [] fuel hd hJ hJ ?_
  rw [fixLastDelim_eq hle]
  by_cases hs : d.bytes <:+ J
  · obtain ⟨w, rfl⟩ := hs
    have hlast := hend w rfl
    have hw : w ≠ [] := by
      rintro rfl
      simp at hlast
    have hlen : (w ++ d.bytes).length - d.bytes.length = w.length := by simp
    rw [if_pos (suffix_append _ _), if_neg (by simp; omega), hlen, append_assoc,
      if_neg (not_not.2 ((getD_before w _ hw).2 hlast))]
  · rw [if_neg hs]

theorem s13Explode_cut (fuel : ℕ) (hd : d.bytes ≠ []) (hJ : 0 ∉ w ++ d.bytes) (hw : w ≠ [])
    (hend : w.getLast? ≠ some e) : s13Explode fuel (w ++ d.bytes ++ [0]) d none e =
      (splitEsc d.bytes e fuel [] w).map Prod.fst := by
  obtain ⟨n, hn⟩ := Nat.exists_eq_add_of_le (length_pos_iff.2 hd)
  have hwn : 0 ∉ w := fun h0 => hJ (mem_append_left _ h0)
  refine s13Explode_of_fix (List.replicate n 0 ++ [0]) fuel hd hJ hwn ?_
  have hlen : (w ++ d.bytes).length - d.bytes.length = w.length := by simp
  rw [fixLastDelim_eq (by simp), if_pos (suffix_append _ _), if_neg (by simp; omega), hlen,
    append_assoc, if_pos (mt (getD_before w _ hw).1 hend), memset0_append, hn, Nat.add_comm 1]
  rfl

/-- Where the text is shorter than the delimiter, or the delimiter itself, bytes in front of the
buffer are compared. -/
theorem s13Explode_short (fuel : ℕ) (hJ : 0 ∉ J)
    (h : J.length < d.bytes.length ∨ J = d.bytes) : s13Explode fuel (J ++ [0]) d none e = none := by
  have hfix : fixLastDelim (J ++ [0]) J.length d.bytes e = none := by
    rcases h with h | rfl
    · unfold fixLastDelim
      rw [if_pos h]
    · rw [fixLastDelim_eq le_rfl, if_pos (suffix_refl _), if_pos rfl]
  rw [s13Explode, cstr_concat_nul hJ, hfix]
  rfl

end
end Prj.Lib13
