import Prj.Jlib.CellData
import Prj.Jlib.DptrChain

/-! The data pointers of a cell as they are written and read back. -/
namespace Prj.Jlib
open Prj.Base List Option

variable {env : Env} {g : Geometry} {s s' : Store} {l : Loc}

section Chain
variable {n fuel : ℕ} {ls : List Loc} {ptrs : List DataPtr}

theorem length_of_takePtrs (h : takePtrs env g fuel s n = some (s', ls)) : ls.length = n := by
  induction fuel generalizing s n ls with
  | zero => simp [takePtrs] at h
  | succ fuel ih =>
    rw [takePtrs_succ] at h
    split_ifs at h with hfit
    · cases h
      rw [length_take]
      omega
    · obtain ⟨⟨s2, ls'⟩, htake, hq⟩ := map_eq_some_iff.mp h
      cases hq
      rw [length_append, ih htake]
      omega

theorem PtrsFor.exists_fillDptrChain (h : PtrsFor env g s ptrs.length) (hptrs : ptrs ≠ []) :
    ∃ s' l ls, fillDptrChain env g s ptrs = some (s', l) ∧ Joined s' l ls ∧
      Node.follow s'.entry ptrs.length l = some ptrs ∧
      s'.dataBids = s.dataBids ∧ s'.nful = s.nful ∧ s'.data = s.data := by
  obtain ⟨s1, ls, htake, hlen, hnodup, hmem, hext⟩ :=
    h.exists_takePtrs (Nat.succ_pos ptrs.length) (by omega)
  cases ls with
  | nil => exact absurd (length_eq_zero_iff.mp hlen.symm) hptrs
  | cons l ls =>
    obtain ⟨hpath, hwalk⟩ := joined_link hnodup fun l' hl' => (hmem l' hl').2
    obtain ⟨entry, hfill, -, hfilled, hfollow⟩ := Node.exists_fill hpath hnodup hlen.symm
    refine ⟨{ s1 with entry, link := Node.relink s1.link (l :: ls) }, l, ls, ?_, ⟨hfilled, hwalk.1, fun x hx => ?_⟩,
      hfollow l rfl, hext.dataBids, hext.nful, hext.data⟩
    · rw [fillDptrChain, createDptrChain, if_neg (by simpa using hptrs), htake]
      simp only [head?_cons] at hfill
      simp only [hfill, map_some]
    · exact ⟨(hwalk.2 x hx).1, hfilled.isSome hx⟩

theorem ptrsFor_of_fillDptrChain (h : fillDptrChain env g s ptrs = some (s', l)) :
    ptrs ≠ [] ∧ PtrsFor env g s ptrs.length := by
  rw [fillDptrChain, createDptrChain] at h
  split_ifs at h with hptrs
  refine ⟨by simpa using hptrs, ?_⟩
  cases htake : takePtrs env g (ptrs.length + 1) s ptrs.length with
  | none => simp [htake] at h
  | some r =>
    obtain ⟨s1, ls⟩ := r
    cases ls with
    | nil => simp [htake] at h
    | cons l' ls =>
      rw [htake] at h
      obtain ⟨entry, hfill, -⟩ := map_eq_some_iff.mp h
      exact ptrsFor_of_nodup htake (Node.nodup_of_fill_link (length_of_takePtrs htake).symm hfill)

theorem fillDptrChain_spec (h : fillDptrChain env g s ptrs = some (s', l)) :
    (∃ ls, Joined s' l ls) ∧ (∃ fuel, Node.follow s'.entry fuel l = some ptrs) ∧
      s'.dataBids = s.dataBids ∧ s'.nful = s.nful ∧ s'.data = s.data := by
  obtain ⟨hne, hptrs⟩ := ptrsFor_of_fillDptrChain h
  obtain ⟨s1, l1, ls, hfill, hjoined, hfollow, hsame⟩ := hptrs.exists_fillDptrChain hne
  obtain ⟨rfl, rfl⟩ := Prod.mk.inj (some.inj (h.symm.trans hfill))
  exact ⟨⟨ls, hjoined⟩, ⟨_, hfollow⟩, hsame⟩

end Chain

section Load
variable {b datalen : ℕ} {crc : UInt32} {bytes : List UInt8} {rs : List (ℕ × ℕ)}

theorem mapM_id_eq_some_iff {buf : List (Option UInt8)} : buf.mapM id = some bytes ↔ buf = bytes.map some := by
  induction buf generalizing bytes with
  | nil => cases bytes <;> simp
  | cons x buf ih =>
    rw [mapM_cons]
    cases x with
    | none => cases bytes <;> simp
    | some x =>
      cases hbuf : buf.mapM id with
      | none =>
        refine iff_of_false (by simp) fun heq => ?_
        cases bytes with
        | nil => simp at heq
        | cons y bytes => simp [ih.mpr (List.cons.inj heq).2] at hbuf
      | some rest =>
        rw [ih.mp hbuf]
        cases bytes with
        | nil => simp
        | cons y bytes => simp [List.map_inj_right]

theorem append_replicate_eq_map_some_iff {read : List (Option UInt8)} (hle : read.length ≤ datalen) :
    read ++ List.replicate (datalen - read.length) none = bytes.map some ↔
      read = bytes.map some ∧ bytes.length = datalen := by
  constructor
  · intro h
    have hlen : datalen - read.length = 0 := by
      by_contra hne
      have hmem : (none : Option UInt8) ∈ bytes.map some := by
        rw [← h]
        exact mem_append_right _ (mem_replicate.mpr ⟨hne, rfl⟩)
      simp at hmem
    rw [hlen, replicate_zero, append_nil] at h
    exact ⟨h, by rw [← length_map some, ← h]; omega⟩
  · rintro ⟨rfl, rfl⟩
    simp

theorem mapM_ptrBytes (hb : b ∈ s.dataBids) : (ptrsTo b rs).mapM (ptrBytes g s) =
      some (rs.map fun r => get (s.data b).datapool (r.1 * g.typelen) (r.2 * g.typelen)) := by
  induction rs with
  | nil => rfl
  | cons r rs ih =>
    rw [ptrsTo, map_cons, mapM_cons]
    rw [ptrsTo] at ih
    simp [ptrBytes, hb, ih]

theorem exists_loadCellData_iff {ls : List Loc} (hjoined : Joined s l ls)
    (hfollow : ∃ fuel, Node.follow s.entry fuel l = some (ptrsTo b rs)) (hb : b ∈ s.dataBids) :
    (∃ fuel, loadCellData env g s fuel ⟨some l, datalen, crc⟩ = some (.ok bytes)) ↔
      (rs.flatMap fun r => get (s.data b).datapool (r.1 * g.typelen) (r.2 * g.typelen)) =
        bytes.map some ∧ bytes.length = datalen ∧ env.crc bytes = crc := by
  obtain ⟨fuel, hfollow⟩ := hfollow
  have hload : ∀ fuel', loadDptrChain s fuel' (some l) = some (.ok (s, l)) →
      Node.follow s.entry (fuel' + 1) l = some (ptrsTo b rs) →
        (loadCellData env g s fuel' ⟨some l, datalen, crc⟩ = some (.ok bytes) ↔
          (rs.flatMap fun r => get (s.data b).datapool (r.1 * g.typelen) (r.2 * g.typelen)) =
          bytes.map some ∧ bytes.length = datalen ∧ env.crc bytes = crc) := by
    intro fuel' hchain hfuel
    rw [flatMap_def]
    simp only [loadCellData, hchain, hfuel, mapM_ptrBytes hb]
    generalize (rs.map fun r =>
      get (s.data b).datapool (r.1 * g.typelen) (r.2 * g.typelen)).flatten = read
    by_cases hlong : datalen < read.length
    · rw [if_pos hlong]
      refine iff_of_false (by simp) fun h => ?_
      rw [h.1, length_map] at hlong
      omega
    · rw [if_neg hlong, ← and_assoc, ← append_replicate_eq_map_some_iff (by omega), ← mapM_id_eq_some_iff]
      cases List.mapM id (read ++ List.replicate (datalen - read.length) none) with
      | none => simp
      | some bytes' =>
        by_cases hcrc : env.crc bytes' = crc
        · simp only [hcrc, if_true, some.injEq, Except.ok.injEq]
          exact ⟨fun h => ⟨h, h ▸ hcrc⟩, fun h => h.1⟩
        · simp only [hcrc, if_false, some.injEq, reduceCtorEq, false_iff]
          exact fun h => hcrc (h.1 ▸ h.2)
  constructor
  · rintro ⟨fuel', h⟩
    cases hr : loadDptrChain s fuel' (some l) with
    | none => simp [loadCellData, hr] at h
    | some r =>
      obtain ⟨ls', rfl, hwalk⟩ := walk_of_loadDptrChain hr (hjoined.2.2 l mem_cons_self).1
      rw [hwalk.1.unique hjoined.2.1, Node.link_of_path hjoined.1] at hr
      cases hfuel : Node.follow s.entry (fuel' + 1) l with
      | none => simp [loadCellData, hr, hfuel] at h
      | some ptrs => exact (hload fuel' hr (Node.follow_unique hfollow hfuel ▸ hfuel)).mp h
  · intro h
    refine ⟨max ls.length fuel, (hload _ ?_ ?_).mpr h⟩
    · rw [loadDptrChain_of_walk hjoined.2 (Nat.le_max_left _ _), Node.link_of_path hjoined.1]
    · exact Node.follow_le (Nat.le_succ_of_le (Nat.le_max_right _ _)) hfollow

end Load
end Prj.Jlib
