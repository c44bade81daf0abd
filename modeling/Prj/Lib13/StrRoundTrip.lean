import Mathlib.Algebra.BigOperators.Group.List.Basic
import Prj.Lib13.Str

/-! When `s13_explode` undoes `s13_join_array`. Joining never returns if an element contains the
delimiter; splitting is exact if every delimiter is found where it was put, none looks escaped and
the end of the text is not taken for a trailing delimiter. Lengths rule out all other cases. -/
namespace Prj.Lib13
open Prj.Base List Option

def joinWith (d : List UInt8) : List (List UInt8) → List UInt8
  | [] => []
  | [a] => a
  | a :: b :: as => a ++ (d ++ joinWith d (b :: as))

/-- Every element but the last ends where the delimiter after it is first found, and not in an
escape; the delimiter does not occur in the last one. -/
def Splittable (d : List UInt8) (e : UInt8) : List (List UInt8) → Prop
  | [] => False
  | [a] => ¬ d <:+: a
  | a :: b :: as => (FirstAt d a ∧ (e ≠ 0 → a.getLast? ≠ some e)) ∧ Splittable d e (b :: as)

variable {d a : List UInt8}

theorem cut_eq_none_iff_not_sub : cut d a = none ↔ ¬ d <:+: a := by
  rw [cut_eq_none_iff]
  constructor
  · rintro h ⟨w, z, hwz⟩
    exact h w z (by rw [← hwz, append_assoc])
  · intro h w z hwz
    exact h ⟨w, z, by rw [hwz, append_assoc]⟩

variable {e : UInt8} {fuel : ℕ} {cur rest : List UInt8}

section
variable {ps : List (List UInt8)} {k : ℕ} (h : splitEsc d e fuel cur rest = some (ps, k))
include h

theorem splitEsc_length :
    (ps.map List.length).sum + ps.length * d.length + k = cur.length + rest.length + d.length := by
  induction fuel generalizing cur rest ps k with
  | zero => simp [splitEsc] at h
  | succ fuel ih =>
    rw [splitEsc] at h
    cases hc : cut d rest with
    | none =>
      simp only [hc, some.injEq, Prod.mk.injEq] at h
      obtain ⟨rfl, rfl⟩ := h
      simp
    | some uv =>
      have hlen := congrArg List.length (cut_append hc)
      simp only [hc] at h
      split_ifs at h with hesc
      · obtain ⟨r, hr, hrk⟩ := map_eq_some_iff.1 h
        cases hrk
        have hrec := ih hr
        obtain ⟨w, hw⟩ := getLast?_eq_some_iff.1 hesc.2
        have hlw := congrArg List.length hw
        simp at hrec hlen hlw
        omega
      · obtain ⟨r, hr, hrk⟩ := map_eq_some_iff.1 h
        cases hrk
        have hrec := ih hr
        simp [Nat.add_mul] at hrec hlen ⊢
        omega

theorem splitEsc_ne_nil : ps ≠ [] := by
  induction fuel generalizing cur rest ps k with
  | zero => simp [splitEsc] at h
  | succ fuel ih =>
    rw [splitEsc] at h
    split at h
    · cases h
      simp
    · split_ifs at h
      · obtain ⟨r, hr, hrk⟩ := map_eq_some_iff.1 h
        cases hrk
        exact ih hr
      · obtain ⟨r, hr, hrk⟩ := map_eq_some_iff.1 h
        cases hrk
        simp

end

variable {as : List (List UInt8)} {text r J buf : List UInt8} {fuel n k : ℕ}

theorem length_joinWith (h : as ≠ []) :
    (joinWith d as).length + d.length = (as.map List.length).sum + as.length * d.length := by
  induction as with
  | nil => exact absurd rfl h
  | cons a as ih =>
    cases as with
    | nil => simp [joinWith]
    | cons b as =>
      have hrec := ih (by simp)
      simp [joinWith, Nat.add_mul] at hrec ⊢
      omega

theorem splitEsc_cons_iff (has : as ≠ []) : splitEsc d e (fuel + 1) [] (a ++ (d ++ text)) = some (a :: as, 0) ↔
      (FirstAt d a ∧ (e ≠ 0 → a.getLast? ≠ some e)) ∧ splitEsc d e fuel [] text = some (as, 0) := by
  rw [splitEsc]
  constructor
  · intro h
    cases hc : cut d (a ++ (d ++ text)) with
    | none => exact absurd rfl (cut_eq_none_iff.1 hc a text)
    | some uv =>
      obtain ⟨u, v⟩ := uv
      simp only [hc, nil_append] at h
      split_ifs at h with hesc
      · obtain ⟨r, -, hrk⟩ := map_eq_some_iff.1 h
        exact absurd (Prod.mk.inj hrk).2 (by omega)
      · obtain ⟨⟨ps, k⟩, hr, hrk⟩ := map_eq_some_iff.1 h
        obtain ⟨h1, rfl⟩ := Prod.mk.inj hrk
        cases h1
        have hv : text = v := by simpa using cut_append hc
        rw [← hv] at hc hr
        exact ⟨⟨cut_append_iff.1 hc, fun he hl => hesc ⟨he, hl⟩⟩, hr⟩
  · rintro ⟨⟨hfirst, hlast⟩, hrec⟩
    rw [cut_append_iff.2 hfirst]
    simp only [nil_append]
    rw [if_neg fun h => hlast h.1 h.2, hrec]
    rfl

theorem splitEsc_single_iff : splitEsc d e (fuel + 1) [] a = some ([a], 0) ↔ ¬ d <:+: a := by
  rw [splitEsc, ← cut_eq_none_iff_not_sub]
  cases hc : cut d a with
  | none => simp
  | some uv =>
    simp only [reduceCtorEq, iff_false]
    split_ifs with hesc
    · intro h
      obtain ⟨r, -, hrk⟩ := map_eq_some_iff.1 h
      exact absurd (Prod.mk.inj hrk).2 (by omega)
    · intro h
      obtain ⟨⟨ps, k⟩, hr, hrk⟩ := map_eq_some_iff.1 h
      exact splitEsc_ne_nil hr (List.cons.inj (Prod.mk.inj hrk).1).2

theorem exists_fuel_succ {r : List (List UInt8) × ℕ} : (∃ fuel, splitEsc d e fuel cur rest = some r) ↔
      ∃ fuel, splitEsc d e (fuel + 1) cur rest = some r := by
  constructor
  · rintro ⟨_ | fuel, hf⟩
    · simp [splitEsc] at hf
    · exact ⟨fuel, hf⟩
  · rintro ⟨fuel, hf⟩
    exact ⟨fuel + 1, hf⟩

/-- Without removed escapes, splitting gives back the elements exactly if they are splittable. -/
theorem splitEsc_joinWith_iff (h : as ≠ []) :
    (∃ fuel, splitEsc d e fuel [] (joinWith d as) = some (as, 0)) ↔ Splittable d e as := by
  induction as with
  | nil => exact absurd rfl h
  | cons a as ih =>
    cases as with
    | nil => simp [exists_fuel_succ, joinWith, Splittable, splitEsc_single_iff]
    | cons b as =>
      rw [exists_fuel_succ]
      simp only [joinWith, Splittable, splitEsc_cons_iff (cons_ne_nil b as), exists_and_left]
      rw [ih (by simp)]

section
variable {d before : List UInt8} {e : UInt8}

/-- With an escape (or an empty delimiter) the search of `_s13_restore_escapes` finds the same
delimiter again. -/
theorem restoreEscapes_eq_none (h : e ≠ 0 ∨ d = []) (fuel : ℕ)
    (hc : cut d text ≠ none) : restoreEscapes d e fuel before text = none := by
  induction fuel generalizing before text with
  | zero => rfl
  | succ fuel ih =>
    obtain ⟨⟨u, v⟩, huv⟩ := ne_none_iff_exists'.1 hc
    rw [restoreEscapes, huv]
    refine ih fun hnone => ?_
    rw [cut_eq_none_iff] at hnone
    split_ifs at hnone with he
    · obtain rfl := h.resolve_left (not_not.2 he)
      exact hnone [] [] rfl
    · exact hnone [e] v rfl

theorem restoreEscapes_of_none (hc : cut d text = none) (fuel : ℕ) :
    restoreEscapes d e (fuel + 1) [] text = some text := by
  rw [restoreEscapes, hc]
  rfl

/-- What one element becomes if joining returns: itself, or with no escape the part before the
delimiter. -/
theorem restoreEscapes_some (h : restoreEscapes d e fuel [] text = some r) :
    d ≠ [] ∧ r.length ≤ text.length ∧ (r.length = text.length → r = text) ∧ (0 ∉ text → 0 ∉ r) := by
  cases fuel with
  | zero => simp [restoreEscapes] at h
  | succ fuel =>
    cases hc : cut d text with
    | none =>
      have hd : d ≠ [] := by
        rintro rfl
        exact cut_eq_none_iff.1 hc [] text rfl
      rw [restoreEscapes_of_none hc] at h
      cases h
      exact ⟨hd, le_rfl, fun _ => rfl, id⟩
    | some uv =>
      obtain ⟨u, v⟩ := uv
      by_cases hbad : e ≠ 0 ∨ d = []
      · rw [restoreEscapes_eq_none hbad _ (by simp [hc])] at h
        cases h
      · obtain ⟨he, hd⟩ := not_or.1 hbad
        have htext := cut_append hc
        rw [restoreEscapes, hc] at h
        simp only [not_not.1 he, if_true] at h
        cases fuel with
        | zero => simp [restoreEscapes] at h
        | succ fuel =>
          have hnil : cut d [] = none := by simp [cut, hd]
          rw [restoreEscapes, hnil] at h
          obtain rfl : u = r := by simpa using h
          have hlen := congrArg List.length htext
          have hdpos := length_pos_iff.2 hd
          simp at hlen
          refine ⟨hd, by omega, fun hl => by omega, fun h0 hu => h0 ?_⟩
          rw [htext]
          exact mem_append_left _ hu

end

theorem joinWith_cons (d a : List UInt8) (as : List (List UInt8)) :
    joinWith d (a :: as) = a ++ as.flatMap (d ++ ·) := by
  induction as generalizing a with
  | nil => simp [joinWith]
  | cons b as ih => rw [joinWith, ih, flatMap_cons, append_assoc]

def JoinedAs (d : CStr) (a : CStr) (r : List UInt8) : Prop :=
  d.bytes ≠ [] ∧ r.length ≤ a.bytes.length ∧ (r.length = a.bytes.length → r = a.bytes) ∧ 0 ∉ r

theorem joinedAs_of_restore {d a : CStr} (h : restoreEscapes d.bytes e fuel [] a.bytes = some r) : JoinedAs d a r := by
  obtain ⟨hd, hle, heq, hnul⟩ := restoreEscapes_some h
  exact ⟨hd, hle, heq, hnul a.no_nul⟩

section
variable {d : CStr} {e : UInt8} {array : List CStr} {rs : List (List UInt8)}

theorem foldJoin_some (h : array.foldlM (joinStep fuel d e) buf = some J) :
    ∃ rs, List.Forall₂ (JoinedAs d) array rs ∧ J = buf ++ rs.flatMap (d.bytes ++ ·) := by
  induction array generalizing buf with
  | nil =>
    obtain rfl : buf = J := by simpa using h
    exact ⟨[], .nil, by simp⟩
  | cons a array ih =>
    rw [foldlM_cons, joinStep] at h
    cases hr : restoreEscapes d.bytes e fuel [] a.bytes with
    | none => simp [hr] at h
    | some r =>
      rw [hr] at h
      obtain ⟨rs, hrs, rfl⟩ := ih h
      exact ⟨r :: rs, .cons (joinedAs_of_restore hr) hrs, by simp⟩

theorem s13JoinArray_some (h : s13JoinArray fuel array d e = some (J, n)) :
    array ≠ [] ∧ ∃ rs, List.Forall₂ (JoinedAs d) array rs ∧ J = joinWith d.bytes rs := by
  obtain ⟨_, -, h⟩ := bind_eq_some_iff.1 h
  cases array with
  | nil => simp at h
  | cons a array =>
    obtain ⟨r, hr, h⟩ := bind_eq_some_iff.1 h
    obtain ⟨buf, hbuf, h⟩ := bind_eq_some_iff.1 h
    cases h
    obtain ⟨rs, hrs, rfl⟩ := foldJoin_some hbuf
    exact ⟨by simp, r :: rs, .cons (joinedAs_of_restore hr) hrs, (joinWith_cons _ _ _).symm⟩

theorem foldJoin_of_cut_none (hc : ∀ a ∈ array, cut d.bytes a.bytes = none) (buf : List UInt8) :
    array.foldlM (joinStep 1 d e) buf = some (buf ++ (array.map CStr.bytes).flatMap (d.bytes ++ ·)) := by
  induction array generalizing buf with
  | nil => simp
  | cons a array ih =>
    rw [foldlM_cons, joinStep, restoreEscapes_of_none (hc a (by simp))]
    simp [ih fun b hb => hc b (by simp [hb])]

theorem mapM_some {f : CStr → Option ℕ} {g : CStr → ℕ} {as : List CStr}
    (h : ∀ a ∈ as, f a = some (g a)) : as.mapM f = some (as.map g) := by
  induction as with
  | nil => rfl
  | cons a as ih =>
    rw [mapM_cons, h a (by simp), ih fun b hb => h b (by simp [hb])]
    rfl

theorem s13JoinArray_of_cut_none (hne : array ≠ []) (hc : ∀ a ∈ array, cut d.bytes a.bytes = none) :
    ∃ n, s13JoinArray 1 array d e = some (joinWith d.bytes (array.map CStr.bytes), n) ∧
      (joinWith d.bytes (array.map CStr.bytes)).length + 1 ≤ n := by
  unfold s13JoinArray
  rw [mapM_some (g := fun a => a.bytes.length + d.bytes.length) fun a ha => by
    simp [elementSize, countEscapes, hc a ha]]
  cases array with
  | nil => exact absurd rfl hne
  | cons a array =>
    have hfold := foldJoin_of_cut_none (e := e) (fun b hb => hc b (mem_cons_of_mem a hb)) a.bytes
    have hlen : (joinWith d.bytes ((a :: array).map CStr.bytes)).length + d.bytes.length = _ :=
      length_joinWith (by simp)
    have hsum : ((a :: array).map fun a => a.bytes.length + d.bytes.length).sum =
        (((a :: array).map CStr.bytes).map List.length).sum +
          ((a :: array).map CStr.bytes).length * d.bytes.length := by
      simp [sum_map_add, Function.comp_def, Nat.add_mul]
      omega
    refine ⟨((a :: array).map fun a => a.bytes.length + d.bytes.length).sum + 1, ?_, ?_⟩
    · simp [restoreEscapes_of_none (hc a (by simp)), joinWith_cons, hfold]
    · omega

theorem sum_length_le (h : List.Forall₂ (JoinedAs d) array rs) :
    (rs.map List.length).sum ≤ ((array.map CStr.bytes).map List.length).sum ∧
      ((rs.map List.length).sum = ((array.map CStr.bytes).map List.length).sum → rs = array.map CStr.bytes) := by
  induction h with
  | nil => simp
  | cons hr _ ih =>
    obtain ⟨-, hle, heq, -⟩ := hr
    simp only [map_cons, sum_cons, List.cons.injEq]
    exact ⟨by omega, fun hs => ⟨heq (by omega), ih.2 (by omega)⟩⟩

theorem nul_not_mem_joinWith (has : ∀ a ∈ as, 0 ∉ a) : 0 ∉ joinWith d.bytes as := by
  cases as with
  | nil => simp [joinWith]
  | cons a as =>
    rw [joinWith_cons, mem_append, mem_flatMap]
    rintro (h | ⟨b, hb, h⟩)
    · exact has a (by simp) h
    · rcases mem_append.1 h with h | h
      · exact d.no_nul h
      · exact has b (by simp [hb]) h

theorem nul_not_mem_of_joinedAs (h : List.Forall₂ (JoinedAs d) array rs) : ∀ r ∈ rs, 0 ∉ r := by
  induction h with
  | nil => simp
  | cons hr _ ih => exact forall_mem_cons.2 ⟨hr.2.2.2, ih⟩

end

/-- Joining returns, and exploding the text it returns gives the array. -/
def RoundTrips (array : List CStr) (delim : CStr) (escape : UInt8) : Prop :=
  ∃ J, (∃ fuel n, s13JoinArray fuel array delim escape = some (J, n)) ∧
    ∃ fuel, s13Explode fuel (J ++ [0]) delim none escape = some (array.map CStr.bytes)

/-- The end of a text is not taken for a trailing delimiter. -/
def EndSafe (d : List UInt8) (e : UInt8) (J : List UInt8) : Prop :=
  d.length ≤ J.length ∧ ∀ w, J = w ++ d → w.getLast? = some e

section
variable {d : CStr} {e : UInt8} {array : List CStr}

theorem length_of_split (h : splitEsc d.bytes e fuel [] text = some (as, k)) :
    (as.map List.length).sum + as.length * d.bytes.length + k = text.length + d.bytes.length := by
  simpa using splitEsc_length h

section
variable {rs : List (List UInt8)} {fuel : ℕ} (hne : rs ≠ []) (hrs : List.Forall₂ (JoinedAs d) array rs)
  (hd : d.bytes ≠ [])
include hne hrs hd

theorem endSafe_of_explode (h : s13Explode fuel (joinWith d.bytes rs ++ [0]) d none e = some (array.map CStr.bytes)) :
    EndSafe d.bytes e (joinWith d.bytes rs) := by
  have hnul := nul_not_mem_joinWith (d := d) (nul_not_mem_of_joinedAs hrs)
  constructor
  · by_contra hlt
    rw [s13Explode_short fuel hnul (.inl (by omega))] at h
    cases h
  · intro w hw
    by_contra hlast
    rcases eq_or_ne w [] with rfl | hwne
    · rw [s13Explode_short fuel hnul (.inr (by simpa using hw))] at h
      cases h
    · have hlen := length_joinWith (d := d.bytes) hne
      have hdpos := length_pos_iff.2 hd
      rw [hw, s13Explode_cut fuel hd (hw ▸ hnul) hwne hlast] at h
      obtain ⟨⟨ps, k⟩, hps, rfl⟩ := map_eq_some_iff.1 h
      have hsplit := length_of_split hps
      have hle := (sum_length_le hrs).1
      have hl := hrs.length_eq
      rw [hw] at hlen
      simp only [length_append, length_map] at hlen hsplit
      rw [hl] at hsplit
      omega

theorem split_of_explode (hend : EndSafe d.bytes e (joinWith d.bytes rs))
    (h : s13Explode fuel (joinWith d.bytes rs ++ [0]) d none e = some (array.map CStr.bytes)) :
    rs = array.map CStr.bytes ∧ splitEsc d.bytes e fuel [] (joinWith d.bytes rs) = some (array.map CStr.bytes, 0) := by
  rw [s13Explode_whole fuel hd (nul_not_mem_joinWith (nul_not_mem_of_joinedAs hrs)) hend.1 hend.2] at h
  obtain ⟨⟨ps, k⟩, hps, rfl⟩ := map_eq_some_iff.1 h
  have hlen := length_joinWith (d := d.bytes) hne
  have hsplit := length_of_split hps
  obtain ⟨hle, heq⟩ := sum_length_le hrs
  have hl := hrs.length_eq
  simp only [length_map] at hsplit
  rw [hl] at hsplit
  obtain rfl : k = 0 := by omega
  exact ⟨heq (by omega), hps⟩

end

theorem Splittable.cut_none (h : Splittable d.bytes e as) (hd : d.bytes ≠ []) : ∀ a ∈ as, cut d.bytes a = none := by
  induction as with
  | nil => simp
  | cons a as ih =>
    cases as with
    | nil => simpa [cut_eq_none_iff_not_sub, Splittable] using h
    | cons b as =>
      refine forall_mem_cons.2 ⟨?_, ih h.2⟩
      rw [cut_eq_none_iff]
      intro w z hwz
      have hle := h.1.1 w (z ++ d.bytes) (by rw [hwz]; simp)
      have hlen := congrArg List.length hwz
      have hdpos := length_pos_iff.2 hd
      simp at hlen
      omega

/-- The round trip is exact exactly for a nonempty delimiter, elements that it splits, and a text
whose end is not taken for a trailing delimiter. -/
theorem s13_round_trip_iff (array : List CStr) (d : CStr) (e : UInt8) :
    RoundTrips array d e ↔ d.bytes ≠ [] ∧ Splittable d.bytes e (array.map CStr.bytes) ∧
      EndSafe d.bytes e (joinWith d.bytes (array.map CStr.bytes)) := by
  constructor
  · rintro ⟨J, ⟨_, _, hjoin⟩, fuel, hexp⟩
    obtain ⟨hne, rs, hrs, rfl⟩ := s13JoinArray_some hjoin
    have hrne : rs ≠ [] := by
      rintro rfl
      exact hne (length_eq_zero_iff.1 hrs.length_eq)
    have hd : d.bytes ≠ [] := by
      cases hrs with
      | nil => exact absurd rfl hne
      | cons hr _ => exact hr.1
    have hend := endSafe_of_explode hrne hrs hd hexp
    obtain ⟨rfl, hsplit⟩ := split_of_explode hrne hrs hd hend hexp
    exact ⟨hd, (splitEsc_joinWith_iff hrne).1 ⟨fuel, hsplit⟩, hend⟩
  · rintro ⟨hd, hsplit, hend⟩
    have hne : array.map CStr.bytes ≠ [] := by
      intro h
      rw [h] at hsplit
      exact hsplit
    have hcut := hsplit.cut_none hd
    obtain ⟨n, hjoin, -⟩ := s13JoinArray_of_cut_none (e := e) (by simpa using hne)
      fun a ha => hcut a.bytes (mem_map_of_mem ha)
    obtain ⟨fuel, hfuel⟩ := (splitEsc_joinWith_iff hne).2 hsplit
    have hnul : 0 ∉ joinWith d.bytes (array.map CStr.bytes) :=
      nul_not_mem_joinWith (by simpa using fun a _ => CStr.no_nul a)
    refine ⟨_, ⟨1, n, hjoin⟩, fuel, ?_⟩
    rw [s13Explode_whole fuel hd hnul hend.1 hend.2, hfuel]
    rfl

end

/-- Joining `x;y` and `z` with the delimiter `;` and the escape `\\` never returns. -/
theorem s13_join_unescaped : ¬ RoundTrips [⟨[120, 59, 121], by decide⟩, ⟨[122], by decide⟩] ⟨[59], by decide⟩ 92 := by
  rintro ⟨J, ⟨fuel, n, h⟩, -⟩
  have hrest : restoreEscapes [59] 92 fuel [] [120, 59, 121] = none :=
    restoreEscapes_eq_none (.inl (by decide)) fuel (by decide)
  simp [s13JoinArray, hrest] at h

end Prj.Lib13
