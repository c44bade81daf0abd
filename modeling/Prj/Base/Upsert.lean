import Mathlib.Data.List.Basic

/-!
Tables that are updated by pattern.

A probe looks for the first row whose key is like its pattern. If there is one, the probe writes to all
rows whose keys are like the key of that row; otherwise it appends a row of its own. Which rows a probe
writes to depends on the keys alone, so that part is said for lists of keys.
-/
namespace Prj.Base
open List Option

structure Lookup (κ ι : Type) where
  like : κ → κ → Bool
  pattern : ι → κ
  /-- The key of the row that a probe appends. -/
  own : ι → κ
  like_self : ∀ k, like k k = true

namespace Lookup
variable {κ ι : Type} (L : Lookup κ ι) {keys : List κ} {v w : ι} {vs pre post : List ι} {i : ℕ} {k : κ}

def selected (keys : List κ) (v : ι) : Option κ := keys.find? (L.like (L.pattern v))

def grow (keys : List κ) (v : ι) : List κ :=
  match L.selected keys v with
  | none => keys ++ [L.own v]
  | some _ => keys

def growAll (keys : List κ) (vs : List ι) : List κ := vs.foldl L.grow keys

/-- The probe writes to row `i`. -/
def Hits (keys : List κ) (v : ι) (i : ℕ) : Prop :=
  ∃ k k', L.selected keys v = some k ∧ keys[i]? = some k' ∧ L.like k k' = true

/-- No probe writes to row `i`. -/
def Unhit : List κ → List ι → ℕ → Prop
  | _, [], _ => True
  | keys, v :: vs, i => ¬ L.Hits keys v i ∧ Unhit (L.grow keys v) vs i

variable {L}

theorem grow_of_some (h : L.selected keys v = some k) : L.grow keys v = keys := by
  rw [grow, h]

theorem grow_of_none (h : L.selected keys v = none) : L.grow keys v = keys ++ [L.own v] := by
  rw [grow, h]

@[simp] theorem growAll_nil : L.growAll keys [] = keys := rfl

@[simp] theorem growAll_cons : L.growAll keys (v :: vs) = L.growAll (L.grow keys v) vs := rfl

theorem growAll_append : L.growAll keys (vs ++ post) = L.growAll (L.growAll keys vs) post :=
  foldl_append

theorem prefix_grow (keys : List κ) (v : ι) : keys <+: L.grow keys v := by
  unfold grow
  split
  · exact prefix_append _ _
  · exact prefix_refl _

theorem prefix_growAll (keys : List κ) (vs : List ι) : keys <+: L.growAll keys vs := by
  induction vs generalizing keys with
  | nil => exact prefix_refl _
  | cons v vs ih => exact (prefix_grow keys v).trans (ih (L.grow keys v))

theorem hits_of_selected (h : L.selected keys v = some k) : ∃ i, keys[i]? = some k ∧ L.Hits keys v i := by
  obtain ⟨i, hi⟩ := mem_iff_getElem?.1 (mem_of_find?_eq_some h)
  exact ⟨i, hi, k, k, h, hi, L.like_self k⟩

theorem unhit_append : L.Unhit keys (pre ++ post) i ↔ L.Unhit keys pre i ∧ L.Unhit (L.growAll keys pre) post i := by
  induction pre generalizing keys with
  | nil => simp [Unhit]
  | cons v pre ih => simp only [cons_append, Unhit, ih, growAll_cons, and_assoc]

theorem not_hits_of_unhit (h : L.Unhit keys (pre ++ v :: post) i) : ¬ L.Hits (L.growAll keys pre) v i :=
  (unhit_append.1 h).2.1

theorem exists_last_hit (h : ¬ L.Unhit keys vs i) : ∃ pre v post, vs = pre ++ v :: post ∧
    L.Hits (L.growAll keys pre) v i ∧ L.Unhit (L.grow (L.growAll keys pre) v) post i := by
  induction vs generalizing keys with
  | nil => exact absurd trivial h
  | cons v vs ih =>
    by_cases hrest : L.Unhit (L.grow keys v) vs i
    · have hhit : L.Hits keys v i := by
        by_contra hno
        exact h ⟨hno, hrest⟩
      exact ⟨[], v, vs, rfl, hhit, hrest⟩
    · obtain ⟨pre, w, post, rfl, hhit, hpost⟩ := ih hrest
      exact ⟨v :: pre, w, post, rfl, hhit, hpost⟩

theorem split_eq_of_hits {pre' post' : List ι} (hsplit : pre ++ v :: post = pre' ++ w :: post')
    (hhit : L.Hits (L.growAll keys pre) v i) (hpre : L.Unhit keys pre' i)
    (hpost : L.Unhit (L.grow (L.growAll keys pre') w) post' i) : pre = pre' ∧ v = w ∧ post = post' := by
  rcases append_eq_append_iff.1 hsplit with ⟨a, rfl, heq⟩ | ⟨a, rfl, heq⟩
  · cases a with
    | nil =>
      rw [nil_append, List.cons.injEq] at heq
      exact ⟨(append_nil _).symm, heq⟩
    | cons u a =>
      cases heq
      exact absurd hhit (not_hits_of_unhit hpre)
  · cases a with
    | nil =>
      rw [nil_append, List.cons.injEq] at heq
      exact ⟨append_nil _, heq.1.symm, heq.2.symm⟩
    | cons u a =>
      cases heq
      rw [growAll_append, growAll_cons] at hhit
      exact absurd hhit (not_hits_of_unhit hpost)

theorem exists_appended (hle : keys.length ≤ i) (hlt : i < (L.growAll keys vs).length) :
    ∃ pre v post, vs = pre ++ v :: post ∧ L.selected (L.growAll keys pre) v = none ∧
      (L.growAll keys pre).length = i := by
  induction vs generalizing keys with
  | nil => exact absurd hlt (by simpa using hle)
  | cons v vs ih =>
    by_cases hsel : L.selected keys v = none ∧ keys.length = i
    · exact ⟨[], v, vs, rfl, hsel⟩
    · have hle' : (L.grow keys v).length ≤ i := by
        cases hv : L.selected keys v with
        | none =>
          rw [grow_of_none hv, length_append, length_singleton]
          exact Nat.lt_of_le_of_ne hle fun h => hsel ⟨hv, h⟩
        | some k => rwa [grow_of_some hv]
      obtain ⟨pre, w, post, rfl, hnone, hlen⟩ := ih hle' hlt
      exact ⟨v :: pre, w, post, rfl, hnone, hlen⟩

end Lookup

/-- Rows with the keys of a lookup. `put v r r'` is what a probe that found `r` makes of `r'`. -/
structure Upsert {κ ι : Type} (L : Lookup κ ι) (ρ : Type) where
  key : ρ → κ
  put : ι → ρ → ρ → ρ
  new : ι → ρ
  key_put : ∀ v r r', key (put v r r') = key r'
  key_new : ∀ v, key (new v) = L.own v

namespace Upsert
variable {κ ι ρ : Type} {L : Lookup κ ι} (U : Upsert L ρ) {rows : List ρ} {r r' : ρ} {v : ι} {vs ws : List ι} {i : ℕ}

def find (rows : List ρ) (v : ι) : Option ρ := rows.find? fun r => L.like (L.pattern v) (U.key r)

def touch (rows : List ρ) (v : ι) : List ρ :=
  match U.find rows v with
  | none => rows ++ [U.new v]
  | some r => rows.map fun r' => if L.like (U.key r) (U.key r') then U.put v r r' else r'

def run (rows : List ρ) (vs : List ι) : List ρ := vs.foldl U.touch rows

variable {U}

@[simp] theorem run_nil : U.run rows [] = rows := rfl

@[simp] theorem run_cons : U.run rows (v :: vs) = U.run (U.touch rows v) vs := rfl

theorem run_append : U.run rows (vs ++ ws) = U.run (U.run rows vs) ws := foldl_append

theorem touch_of_find_none (h : U.find rows v = none) : U.touch rows v = rows ++ [U.new v] := by
  rw [touch, h]

theorem touch_of_find_some (h : U.find rows v = some r) : U.touch rows v =
    rows.map fun r' => if L.like (U.key r) (U.key r') then U.put v r r' else r' := by
  rw [touch, h]

theorem selected_map_key : L.selected (rows.map U.key) v = (U.find rows v).map U.key := by
  unfold Lookup.selected find
  rw [find?_map]
  rfl

theorem selected_of_find (h : U.find rows v = some r) : L.selected (rows.map U.key) v = some (U.key r) := by
  rw [selected_map_key, h, map_some]

theorem exists_find_of_selected {k : κ} (h : L.selected (rows.map U.key) v = some k) :
    ∃ r ∈ rows, U.find rows v = some r ∧ U.key r = k := by
  obtain ⟨r, hr, hk⟩ := map_eq_some_iff.1 (selected_map_key.symm.trans h)
  exact ⟨r, mem_of_find?_eq_some hr, hr, hk⟩

theorem map_key_touch : (U.touch rows v).map U.key = L.grow (rows.map U.key) v := by
  cases h : U.find rows v with
  | none =>
    rw [touch_of_find_none h, Lookup.grow_of_none (by rw [selected_map_key, h, map_none])]
    simp [U.key_new]
  | some r =>
    rw [touch_of_find_some h, Lookup.grow_of_some (selected_of_find h), List.map_map]
    apply map_congr_left
    intro r' _
    simp only [Function.comp_apply]
    split <;> simp [U.key_put]

theorem map_key_run : (U.run rows vs).map U.key = L.growAll (rows.map U.key) vs := by
  induction vs generalizing rows with
  | nil => rfl
  | cons v vs ih => rw [run_cons, ih, map_key_touch, Lookup.growAll_cons]

theorem hits_iff : L.Hits (rows.map U.key) v i ↔
    ∃ r r', U.find rows v = some r ∧ rows[i]? = some r' ∧ L.like (U.key r) (U.key r') = true := by
  unfold Lookup.Hits
  rw [selected_map_key]
  constructor
  · rintro ⟨k, k', hk, hk', hlike⟩
    obtain ⟨r, hr, rfl⟩ := map_eq_some_iff.1 hk
    rw [getElem?_map] at hk'
    obtain ⟨r', hr', rfl⟩ := map_eq_some_iff.1 hk'
    exact ⟨r, r', hr, hr', hlike⟩
  · rintro ⟨r, r', hr, hr', hlike⟩
    exact ⟨U.key r, U.key r', by rw [hr, map_some], by rw [getElem?_map, hr', map_some], hlike⟩

theorem touch_getElem?_of_hits (hfind : U.find rows v = some r) (hi : rows[i]? = some r')
    (hhit : L.Hits (rows.map U.key) v i) : (U.touch rows v)[i]? = some (U.put v r r') := by
  obtain ⟨s, s', hs, hs', hlike⟩ := hits_iff.1 hhit
  obtain rfl : r = s := some.inj (hfind.symm.trans hs)
  obtain rfl : r' = s' := some.inj (hi.symm.trans hs')
  rw [touch_of_find_some hfind, getElem?_map, hi, map_some, if_pos hlike]

theorem touch_getElem?_of_not_hits (hi : rows[i]? = some r) (hhit : ¬ L.Hits (rows.map U.key) v i) :
    (U.touch rows v)[i]? = some r := by
  cases h : U.find rows v with
  | none =>
    have hlt : i < rows.length := (List.getElem?_eq_some_iff.1 hi).1
    rw [touch_of_find_none h, getElem?_append_left hlt, hi]
  | some s =>
    have hlike : ¬ L.like (U.key s) (U.key r) = true := by
      intro hlike
      exact hhit (hits_iff.2 ⟨s, r, h, hi, hlike⟩)
    rw [touch_of_find_some h, getElem?_map, hi, map_some, if_neg hlike]

theorem run_getElem?_of_unhit (hi : rows[i]? = some r) (h : L.Unhit (rows.map U.key) vs i) :
    (U.run rows vs)[i]? = some r := by
  induction vs generalizing rows with
  | nil => exact hi
  | cons v vs ih =>
    apply ih (touch_getElem?_of_not_hits hi h.1)
    rw [map_key_touch]
    exact h.2

theorem run_getElem?_of_last_hit {pre post : List ι} (hhit : L.Hits (L.growAll (rows.map U.key) pre) v i)
    (hpost : L.Unhit (L.grow (L.growAll (rows.map U.key) pre) v) post i) :
    ∃ r r', U.find (U.run rows pre) v = some r ∧ (U.run rows (pre ++ v :: post))[i]? = some (U.put v r r') := by
  rw [← map_key_run] at hhit hpost
  obtain ⟨r, r', hfind, hi, -⟩ := hits_iff.1 hhit
  refine ⟨r, r', hfind, ?_⟩
  rw [run_append]
  apply run_getElem?_of_unhit (touch_getElem?_of_hits hfind hi hhit)
  rwa [map_key_touch]

theorem touch_cases (h : (U.touch rows v)[i]? = some r) : (rows[i]? = some r ∧ ¬ L.Hits (rows.map U.key) v i) ∨
      (∃ s s', U.find rows v = some s ∧ rows[i]? = some s' ∧ L.Hits (rows.map U.key) v i ∧
        r = U.put v s s') ∨ (U.find rows v = none ∧ i = rows.length ∧ r = U.new v) := by
  cases hi : rows[i]? with
  | some s' =>
    by_cases hhit : L.Hits (rows.map U.key) v i
    · obtain ⟨s, t, hs, -, -⟩ := hits_iff.1 hhit
      rw [touch_getElem?_of_hits hs hi hhit] at h
      exact .inr (.inl ⟨s, s', hs, rfl, hhit, (some.inj h).symm⟩)
    · rw [touch_getElem?_of_not_hits hi hhit] at h
      exact .inl ⟨h, hhit⟩
  | none =>
    have hle : rows.length ≤ i := getElem?_eq_none_iff.1 hi
    cases hfind : U.find rows v with
    | some s => simp [touch_of_find_some hfind, hi] at h
    | none =>
      rw [touch_of_find_none hfind, getElem?_append_right hle] at h
      obtain ⟨hlt, hr⟩ := List.getElem?_eq_some_iff.1 h
      rw [length_singleton] at hlt
      obtain rfl : i = rows.length := by omega
      exact .inr (.inr ⟨rfl, rfl, by simpa using hr.symm⟩)

theorem forall_mem_run {P : ρ → Prop} (hrows : ∀ r ∈ rows, P r)
    (hput : ∀ v ∈ vs, ∀ r r', P r' → P (U.put v r r')) (hnew : ∀ v ∈ vs, P (U.new v)) : ∀ r ∈ U.run rows vs, P r := by
  induction vs generalizing rows with
  | nil => exact hrows
  | cons v vs ih =>
    refine ih ?_ (fun w hw => hput w (mem_cons_of_mem _ hw)) (fun w hw => hnew w (mem_cons_of_mem _ hw))
    intro r hr
    obtain ⟨i, hi⟩ := mem_iff_getElem?.1 hr
    rcases touch_cases hi with ⟨hrow, -⟩ | ⟨s, s', -, hs', -, rfl⟩ | ⟨-, -, rfl⟩
    · exact hrows r (mem_of_getElem? hrow)
    · exact hput v mem_cons_self s s' (hrows s' (mem_of_getElem? hs'))
    · exact hnew v mem_cons_self

theorem getElem?_of_run {B : ρ → Prop} (hput : ∀ v ∈ vs, ∀ r r', ¬ B (U.put v r r'))
    (hnew : ∀ v ∈ vs, ¬ B (U.new v)) (hi : (U.run rows vs)[i]? = some r) (hB : B r) :
    rows[i]? = some r ∧ L.Unhit (rows.map U.key) vs i := by
  induction vs generalizing rows with
  | nil => exact ⟨hi, trivial⟩
  | cons v vs ih =>
    obtain ⟨hrow, hunhit⟩ := ih (fun w hw => hput w (mem_cons_of_mem _ hw))
      (fun w hw => hnew w (mem_cons_of_mem _ hw)) hi
    rcases touch_cases hrow with ⟨hrow, hhit⟩ | ⟨s, s', -, -, -, rfl⟩ | ⟨-, -, rfl⟩
    · rw [map_key_touch] at hunhit
      exact ⟨hrow, hhit, hunhit⟩
    · exact absurd hB (hput v mem_cons_self _ _)
    · exact absurd hB (hnew v mem_cons_self)

end Upsert

/-! When all probes write to one row. -/

theorem length_filter_le_one_iff {α : Type} {l : List α} {p : α → Bool} : (l.filter p).length ≤ 1 ↔
    ∀ (i j : ℕ) a b, l[i]? = some a → l[j]? = some b → p a = true → p b = true → i = j := by
  induction l with
  | nil => simp
  | cons x l ih =>
    by_cases hx : p x = true
    · have hnil : (l.filter p).length ≤ 0 ↔ ∀ a ∈ l, ¬ p a = true := by
        rw [Nat.le_zero, length_eq_zero_iff, filter_eq_nil_iff]
      rw [filter_cons_of_pos hx, length_cons, Nat.succ_le_succ_iff, hnil]
      constructor
      · intro h i j a b hi hj ha hb
        cases i with
        | zero =>
          cases j with
          | zero => rfl
          | succ j => exact absurd hb (h b (mem_of_getElem? hj))
        | succ i => exact absurd ha (h a (mem_of_getElem? hi))
      · intro h a ha hpa
        obtain ⟨i, hi⟩ := mem_iff_getElem?.1 ha
        exact absurd (h 0 (i + 1) x a rfl hi hx hpa) (by omega)
    · rw [filter_cons_of_neg hx, ih]
      constructor
      · intro h i j a b hi hj ha hb
        cases i with
        | zero =>
          obtain rfl : x = a := some.inj hi
          exact absurd ha hx
        | succ i =>
          cases j with
          | zero =>
            obtain rfl : x = b := some.inj hj
            exact absurd hb hx
          | succ j => rw [h i j a b hi hj ha hb]
      · intro h i j a b hi hj ha hb
        exact Nat.succ.inj (h (i + 1) (j + 1) a b hi hj ha hb)

namespace Lookup
variable {κ ι : Type} {L : Lookup κ ι} {keys ks : List κ} {v w : ι} {vs pre post : List ι} {i j : ℕ} {k : κ}

/-- Row `i` is written to or appended. -/
def Written (L : Lookup κ ι) (keys : List κ) (vs : List ι) (i : ℕ) : Prop :=
  i < (L.growAll keys vs).length ∧ ¬ (i < keys.length ∧ L.Unhit keys vs i)

/-- All probes find the row that the first one found or appended, and nothing else is like it. -/
def Single (L : Lookup κ ι) (keys : List κ) : List ι → Prop
  | [] => True
  | v :: vs =>
    match L.selected keys v with
    | some k => (keys.filter (L.like k)).length = 1 ∧ ∀ w ∈ vs, L.selected keys w = some k
    | none => ∀ w ∈ vs, L.selected keys w = none ∧ L.like (L.pattern w) (L.own v) = true ∧
        keys.filter (L.like (L.own v)) = []

theorem single_cons_of_some (h : L.selected keys v = some k) : L.Single keys (v :: vs) ↔
    (keys.filter (L.like k)).length = 1 ∧ ∀ w ∈ vs, L.selected keys w = some k := by
  simp only [Single, h]

theorem single_cons_of_none (h : L.selected keys v = none) : L.Single keys (v :: vs) ↔
    ∀ w ∈ vs, L.selected keys w = none ∧ L.like (L.pattern w) (L.own v) = true ∧
      keys.filter (L.like (L.own v)) = [] := by
  simp only [Single, h]

theorem growAll_of_selected (h : ∀ w ∈ vs, L.selected keys w = some k) : L.growAll keys vs = keys := by
  induction vs with
  | nil => rfl
  | cons w vs ih =>
    rw [growAll_cons, grow_of_some (h w mem_cons_self)]
    exact ih fun u hu => h u (mem_cons_of_mem _ hu)

theorem unhit_of_selected (h : ∀ w ∈ vs, L.selected keys w = some k)
    (hi : ∀ k', keys[i]? = some k' → ¬ L.like k k' = true) : L.Unhit keys vs i := by
  induction vs with
  | nil => trivial
  | cons w vs ih =>
    have hw := h w mem_cons_self
    refine ⟨?_, ?_⟩
    · rintro ⟨k1, k', hk1, hk', hlike⟩
      obtain rfl : k = k1 := some.inj (hw.symm.trans hk1)
      exact hi k' hk' hlike
    · rw [grow_of_some hw]
      exact ih fun u hu => h u (mem_cons_of_mem _ hu)

theorem growAll_prefix_eq (h : L.growAll keys (pre ++ post) = keys) : L.growAll keys pre = keys := by
  have hle : (L.growAll keys pre).length ≤ keys.length := by
    have hpost : L.growAll keys pre <+: L.growAll (L.growAll keys pre) post := prefix_growAll _ _
    rw [← growAll_append, h] at hpost
    exact hpost.length_le
  exact ((prefix_growAll keys pre).eq_of_length_le hle).symm

theorem selected_append_of_none (h : L.selected keys w = none) : L.selected (keys ++ ks) w = L.selected ks w := by
  unfold selected at h ⊢
  rw [find?_append, h, none_or]

theorem selected_append_of_some (h : L.selected keys w = some k) : L.selected (keys ++ ks) w = some k := by
  unfold selected at h ⊢
  rw [find?_append, h, some_or]

theorem selected_of_growAll_eq (h : L.growAll keys vs = keys) (hw : w ∈ vs) : ∃ k, L.selected keys w = some k := by
  obtain ⟨pre, post, rfl⟩ := append_of_mem hw
  have hpre := growAll_prefix_eq h
  cases hsel : L.selected keys w with
  | some k => exact ⟨k, rfl⟩
  | none =>
    have hgrow : L.growAll keys (pre ++ [w]) = keys := by
      apply growAll_prefix_eq
      rw [append_assoc]
      exact h
    rw [growAll_append, hpre, growAll_cons, grow_of_none hsel] at hgrow
    simp at hgrow

theorem not_unhit_of_mem (h : L.growAll keys vs = keys) (hw : w ∈ vs) (hhit : L.Hits keys w i) :
    ¬ L.Unhit keys vs i := by
  obtain ⟨pre, post, rfl⟩ := append_of_mem hw
  rw [← growAll_prefix_eq h] at hhit
  intro hun
  exact not_hits_of_unhit hun hhit

theorem Single.eq_of_written (h : L.Single keys vs) (hi : L.Written keys vs i) (hj : L.Written keys vs j) : i = j := by
  cases vs with
  | nil => exact absurd ⟨hi.1, trivial⟩ hi.2
  | cons v vs =>
    cases hsel : L.selected keys v with
    | some k =>
      obtain ⟨hone, hsame⟩ := (single_cons_of_some hsel).1 h
      have hall : ∀ w ∈ v :: vs, L.selected keys w = some k := by
        intro w hw
        rcases mem_cons.1 hw with rfl | hw
        · exact hsel
        · exact hsame w hw
      have hlike : ∀ i, L.Written keys (v :: vs) i → ∃ k', keys[i]? = some k' ∧ L.like k k' = true := by
        intro i hi
        rw [Written, growAll_of_selected hall] at hi
        by_contra hno
        exact hi.2 ⟨hi.1, unhit_of_selected hall fun k' hk' hlike => hno ⟨k', hk', hlike⟩⟩
      obtain ⟨k1, hk1, hlike1⟩ := hlike i hi
      obtain ⟨k2, hk2, hlike2⟩ := hlike j hj
      exact length_filter_le_one_iff.1 (Nat.le_of_eq hone) i j k1 k2 hk1 hk2 hlike1 hlike2
    | none =>
      rw [single_cons_of_none hsel] at h
      have hlast : ∀ i, L.Written keys (v :: vs) i → i = keys.length := by
        intro i hi
        have hall : ∀ w ∈ vs, L.selected (keys ++ [L.own v]) w = some (L.own v) := by
          intro w hw
          rw [selected_append_of_none (h w hw).1, selected, find?_cons_of_pos (h w hw).2.1]
        rw [Written, growAll_cons, grow_of_none hsel, growAll_of_selected hall, List.length_append,
          length_singleton] at hi
        by_contra hne
        have hlt : i < keys.length := by omega
        refine hi.2 ⟨hlt, ?_, ?_⟩
        · rintro ⟨k, -, hk, -, -⟩
          rw [hsel] at hk
          cases hk
        · rw [grow_of_none hsel]
          cases vs with
          | nil => trivial
          | cons w vs =>
            apply unhit_of_selected hall
            intro k' hk' hlike
            rw [List.getElem?_append_left hlt] at hk'
            have hmem : k' ∈ keys.filter (L.like (L.own v)) :=
              mem_filter.2 ⟨mem_of_getElem? hk', hlike⟩
            rw [(h w mem_cons_self).2.2] at hmem
            cases hmem
      rw [hlast i hi, hlast j hj]

theorem Hits.lt (h : L.Hits keys v i) : i < keys.length := by
  obtain ⟨-, k', -, hk', -⟩ := h
  exact (List.getElem?_eq_some_iff.1 hk').1

theorem growAll_eq_of_written (h : ∀ j, L.Written keys vs j → j = i) (hi : i < keys.length) :
    L.growAll keys vs = keys := by
  have hle : (L.growAll keys vs).length ≤ keys.length := by
    by_contra hlt
    have hnew := h keys.length ⟨by omega, fun h => by omega⟩
    omega
  exact ((prefix_growAll keys vs).eq_of_length_le hle).symm

theorem single_cons_of_written_of_some (hsel : L.selected keys v = some k)
    (h : ∀ i j, L.Written keys (v :: vs) i → L.Written keys (v :: vs) j → i = j) : L.Single keys (v :: vs) := by
  obtain ⟨i, hi, hhit⟩ := hits_of_selected hsel
  have hi' : L.Written keys (v :: vs) i :=
    ⟨Nat.lt_of_lt_of_le hhit.lt (prefix_growAll _ _).length_le, fun hun => hun.2.1 hhit⟩
  have hgrow : L.growAll keys (v :: vs) = keys := growAll_eq_of_written (fun j hj => h j i hj hi') hhit.lt
  have hone : ∀ {w j}, w ∈ v :: vs → L.Hits keys w j → j = i := by
    intro w j hw hj
    refine h j i ⟨?_, fun hun => not_unhit_of_mem hgrow hw hj hun.2⟩ hi'
    rw [hgrow]
    exact hj.lt
  rw [single_cons_of_some hsel]
  constructor
  · apply Nat.le_antisymm
    · rw [length_filter_le_one_iff]
      intro j1 j2 k1 k2 hk1 hk2 hlike1 hlike2
      rw [hone mem_cons_self ⟨k, k1, hsel, hk1, hlike1⟩, hone mem_cons_self ⟨k, k2, hsel, hk2, hlike2⟩]
    · exact length_pos_of_mem (mem_filter.2 ⟨mem_of_getElem? hi, L.like_self k⟩)
  · intro w hw
    obtain ⟨k', hk'⟩ := selected_of_growAll_eq hgrow (mem_cons_of_mem v hw)
    obtain ⟨j, hj, hhit'⟩ := hits_of_selected hk'
    obtain rfl := hone (mem_cons_of_mem v hw) hhit'
    rw [hk', ← hj, hi]

theorem Hits.append (h : L.Hits keys v i) : L.Hits (keys ++ ks) v i := by
  obtain ⟨k, k', hk, hk', hlike⟩ := h
  have hlt := (List.getElem?_eq_some_iff.1 hk').1
  refine ⟨k, k', selected_append_of_some hk, ?_, hlike⟩
  rw [List.getElem?_append_left hlt, hk']

theorem single_cons_of_written_of_none (hsel : L.selected keys v = none)
    (h : ∀ i j, L.Written keys (v :: vs) i → L.Written keys (v :: vs) j → i = j) : L.Single keys (v :: vs) := by
  have hstep : ∀ {j}, L.Written (keys ++ [L.own v]) vs j → L.Written keys (v :: vs) j := by
    intro j hj
    rw [Written, growAll_cons, grow_of_none hsel]
    refine ⟨hj.1, fun hun => hj.2 ⟨?_, ?_⟩⟩
    · rw [List.length_append]
      omega
    · have hun' := hun.2.2
      rwa [grow_of_none hsel] at hun'
  have hlast : L.Written keys (v :: vs) keys.length := by
    refine ⟨?_, fun hun => absurd hun.1 (Nat.lt_irrefl _)⟩
    rw [growAll_cons, grow_of_none hsel]
    refine Nat.lt_of_lt_of_le ?_ (prefix_growAll _ _).length_le
    simp
  have hgrow : L.growAll (keys ++ [L.own v]) vs = keys ++ [L.own v] :=
    growAll_eq_of_written (fun j hj => h j _ (hstep hj) hlast) (by simp)
  have hone : ∀ {w j}, w ∈ vs → L.Hits (keys ++ [L.own v]) w j → j = keys.length := by
    intro w j hw hj
    refine h j _ (hstep ⟨?_, fun hun => not_unhit_of_mem hgrow hw hj hun.2⟩) hlast
    rw [hgrow]
    exact hj.lt
  rw [single_cons_of_none hsel]
  intro w hw
  have hnone : L.selected keys w = none := by
    by_contra hne
    obtain ⟨k, hk⟩ := ne_none_iff_exists'.1 hne
    obtain ⟨j, -, hhit⟩ := hits_of_selected hk
    exact absurd (hone hw hhit.append) (Nat.ne_of_lt hhit.lt)
  obtain ⟨k, hk⟩ := selected_of_growAll_eq hgrow hw
  have hown : L.selected [L.own v] w = some k := by rwa [selected_append_of_none hnone] at hk
  obtain rfl : k = L.own v := mem_singleton.1 (mem_of_find?_eq_some hown)
  refine ⟨hnone, find?_some hown, ?_⟩
  rw [filter_eq_nil_iff]
  intro k' hk' hlike
  obtain ⟨j, hj⟩ := mem_iff_getElem?.1 hk'
  have hlt := (List.getElem?_eq_some_iff.1 hj).1
  have hj' : (keys ++ [L.own v])[j]? = some k' := by rw [List.getElem?_append_left hlt, hj]
  exact absurd (hone hw ⟨_, k', hk, hj', hlike⟩) (Nat.ne_of_lt hlt)

theorem single_iff : L.Single keys vs ↔ ∀ i j, L.Written keys vs i → L.Written keys vs j → i = j := by
  constructor
  · intro h i j hi hj
    exact h.eq_of_written hi hj
  · intro h
    cases vs with
    | nil => trivial
    | cons v vs =>
      cases hsel : L.selected keys v with
      | some k => exact single_cons_of_written_of_some hsel h
      | none => exact single_cons_of_written_of_none hsel h

end Lookup
end Prj.Base
