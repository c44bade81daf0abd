import Mathlib.Algebra.Group.Nat.Defs
import Mathlib.Data.List.Perm.Basic
import Mathlib.Order.Fin.Basic

/-! The blocks of a table that are used most (`_jdb_list_fav` in `jlib/src/jdb_fav.c`), once `hit_list` has been
allocated. `bid_list` has room for `n` numbers. -/
namespace Prj.Jlib.Fav
open List

abbrev Bid := Fin (2 ^ 32)

/-- `JDB_ID_INVAL` -/
def idInval : Bid := Fin.last _

structure FavEntry where
  bid : Bid
  nhits : Bid

/-- The `found` first entries of `bid_list` and `hit_list`, and `sm` with `sm_i`. -/
structure Top where
  list : List FavEntry
  sm : Bid × ℕ

/-- `for(j = 0; j < *n; j++)` -/
def leastLoop : List FavEntry → ℕ → Bid × ℕ → Bid × ℕ
  | [], _, sm => sm
  | e :: es, j, sm => leastLoop es (j + 1) (if e.nhits < sm.1 then (e.nhits, j) else sm)

def visit (n : ℕ) (t : Top) (e : FavEntry) : Top :=
  if e.bid = idInval then t
  else if t.list.length < n then
    ⟨t.list ++ [e], if e.nhits < t.sm.1 then (e.nhits, t.list.length) else t.sm⟩
  else if e.nhits > t.sm.1 then
    ⟨t.list.set t.sm.2 e, leastLoop (t.list.set t.sm.2 e) 0 (e.nhits, t.sm.2)⟩
  else t

def jdbListFav (n : ℕ) (blks : List (List FavEntry)) : List Bid :=
  (blks.foldl (foldl (visit n)) ⟨[], idInval, 0⟩).list.map FavEntry.bid

def favourites (blks : List (List FavEntry)) : List FavEntry := blks.flatten.filter (·.bid ≠ idInval)

variable {n : ℕ} {t : Top} {e : FavEntry} {l es seen : List FavEntry} {sm : Bid × ℕ}

/-- `sm` is as at the start, or the count of an entry and its place. -/
def Stands (l : List FavEntry) (sm : Bid × ℕ) : Prop := sm = (idInval, 0) ∨ ∃ e, l[sm.2]? = some e ∧ e.nhits = sm.1

theorem leastLoop_least (hle : ∀ e ∈ l, sm.1 ≤ e.nhits) (hsm : Stands (l ++ es) sm) :
    (∀ e ∈ l ++ es, (leastLoop es l.length sm).1 ≤ e.nhits) ∧ Stands (l ++ es) (leastLoop es l.length sm) := by
  induction es generalizing l sm with
  | nil =>
    rw [append_nil]
    exact ⟨hle, append_nil l ▸ hsm⟩
  | cons e es ih =>
    rw [append_cons] at hsm ⊢
    have hlen : l.length + 1 = (l ++ [e]).length := by simp
    rw [leastLoop, hlen]
    split_ifs with hlt
    · refine ih (fun x hx => ?_) (.inr ⟨e, by simp, rfl⟩)
      rcases mem_append.1 hx with hx | hx
      · exact hlt.le.trans (hle x hx)
      · exact mem_singleton.1 hx ▸ le_rfl
    · refine ih (fun x hx => ?_) hsm
      rcases mem_append.1 hx with hx | hx
      · exact hle x hx
      · exact mem_singleton.1 hx ▸ not_lt.1 hlt

/-- What holds once the entries `seen` have been visited. -/
structure Top.Inv (n : ℕ) (t : Top) (seen : List FavEntry) : Prop where
  length_eq : t.list.length = min n seen.length
  parts : ∃ rest, seen ~ t.list ++ rest ∧ ∀ x ∈ rest, x.nhits ≤ t.sm.1
  sm_le : ∀ x ∈ t.list, t.sm.1 ≤ x.nhits
  stands : Stands t.list t.sm

theorem Top.Inv.fill (h : t.Inv n seen) (hlt : t.list.length < n) :
    Top.Inv n ⟨t.list ++ [e], leastLoop [e] t.list.length t.sm⟩ (seen ++ [e]) := by
  have hlen := h.length_eq
  obtain ⟨rest, hperm, -⟩ := h.parts
  obtain rfl : rest = [] := by
    have heq := hperm.length_eq
    rw [length_append] at heq
    exact length_eq_zero_iff.1 (by omega)
  have hstands : Stands (t.list ++ [e]) t.sm := by
    refine h.stands.imp_right ?_
    rintro ⟨x, hx, heq⟩
    exact ⟨x, by rw [getElem?_append_left (List.getElem?_eq_some_iff.1 hx).1, hx], heq⟩
  obtain ⟨hle, hstands⟩ := leastLoop_least h.sm_le hstands
  refine ⟨?_, ⟨[], by simpa using hperm.append_right [e], by simp⟩, hle, hstands⟩
  simp only [length_append, length_singleton]
  omega

theorem Top.Inv.replace (h : t.Inv n seen) (hfull : ¬t.list.length < n) (hgt : e.nhits > t.sm.1) :
    Top.Inv n ⟨t.list.set t.sm.2 e, leastLoop (t.list.set t.sm.2 e) 0 (e.nhits, t.sm.2)⟩ (seen ++ [e]) := by
  have hlen := h.length_eq
  obtain ⟨rest, hperm, hrest⟩ := h.parts
  obtain ⟨x, hx, hxsm⟩ := h.stands.resolve_left fun heq => by
    rw [heq] at hgt
    exact hgt.not_ge (Fin.le_last _)
  obtain ⟨hi, hget⟩ := List.getElem?_eq_some_iff.1 hx
  obtain ⟨hle, hstands⟩ := @leastLoop_least [] (t.list.set t.sm.2 e) (e.nhits, t.sm.2) (by simp)
    (.inr ⟨e, by simp [hi], rfl⟩)
  -- the least count does not get smaller
  have hsm : t.sm.1 ≤ (leastLoop (t.list.set t.sm.2 e) 0 (e.nhits, t.sm.2)).1 := by
    rcases hstands with heq | ⟨y, hy, heq⟩
    · exact (congrArg Prod.fst heq).symm ▸ Fin.le_last _
    · refine heq ▸ ?_
      rcases mem_or_eq_of_mem_set (mem_of_getElem? hy) with hmem | rfl
      · exact h.sm_le y hmem
      · exact hgt.le
  refine ⟨?_, ⟨x :: rest, ?_, ?_⟩, hle, hstands⟩
  · simp only [length_set, length_append, length_singleton]
    omega
  · have hset := set_perm_cons_eraseIdx hi e
    have herase := hget ▸ getElem_cons_eraseIdx_perm hi
    calc
      seen ++ [e] ~ e :: seen := perm_append_singleton e seen
      _ ~ e :: (x :: t.list.eraseIdx t.sm.2 ++ rest) := .cons e (hperm.trans (herase.symm.append_right rest))
      _ ~ e :: t.list.eraseIdx t.sm.2 ++ x :: rest := .cons e perm_middle.symm
      _ ~ t.list.set t.sm.2 e ++ x :: rest := hset.symm.append_right _
  · intro y hy
    rcases mem_cons.1 hy with rfl | hy
    · exact hxsm ▸ hsm
    · exact (hrest y hy).trans hsm

theorem Top.Inv.visit (h : t.Inv n seen) (e : FavEntry) :
    (visit n t e).Inv n (seen ++ [e].filter (·.bid ≠ idInval)) := by
  by_cases hbid : e.bid = idInval
  · rw [Fav.visit, if_pos hbid]
    simpa [hbid] using h
  have hone : [e].filter (·.bid ≠ idInval) = [e] := by simp [hbid]
  rw [hone, Fav.visit, if_neg hbid]
  by_cases hlt : t.list.length < n
  · rw [if_pos hlt]
    exact h.fill hlt
  rw [if_neg hlt]
  split_ifs with hgt
  · exact h.replace hlt hgt
  · obtain ⟨rest, hperm, hrest⟩ := h.parts
    refine ⟨?_, ⟨rest ++ [e], ?_, ?_⟩, h.sm_le, h.stands⟩
    · have hlen := h.length_eq
      rw [length_append]
      omega
    · rw [← append_assoc]
      exact hperm.append_right [e]
    · simpa [or_imp, forall_and] using ⟨hrest, not_lt.1 hgt⟩

theorem Top.Inv.foldl_visit (h : t.Inv n seen) (es : List FavEntry) :
    (es.foldl (Fav.visit n) t).Inv n (seen ++ es.filter (·.bid ≠ idInval)) := by
  induction es generalizing t seen with
  | nil => simpa using h
  | cons e es ih =>
    rw [foldl_cons, ← singleton_append, filter_append, ← append_assoc]
    exact ih (h.visit e)

/-- The `n` entries with the most hits are found, or all if there are fewer. -/
theorem jdbListFav_top (n : ℕ) (blks : List (List FavEntry)) : ∃ top rest,
    jdbListFav n blks = top.map FavEntry.bid ∧ favourites blks ~ top ++ rest ∧
      top.length = min n (favourites blks).length ∧ ∀ e ∈ top, ∀ x ∈ rest, x.nhits ≤ e.nhits := by
  have hstart : Top.Inv n ⟨[], idInval, 0⟩ [] := ⟨by simp, ⟨[], .refl _, by simp⟩, by simp, .inl rfl⟩
  have hinv := hstart.foldl_visit blks.flatten
  rw [foldl_flatten] at hinv
  obtain ⟨rest, hperm, hrest⟩ := hinv.parts
  exact ⟨_, rest, rfl, hperm, hinv.length_eq, fun e he x hx => (hrest x hx).trans (hinv.sm_le e he)⟩

end Prj.Jlib.Fav
