import Mathlib.Data.List.Count
import Prj.Step13.Tree
import Prj.Step13.Update

/-! The marks of the compare table, and when they are right. -/
namespace Prj.Step13
open Prj.Base List

/-- The content of the source directory: its paths fit into their buffers. -/
structure SourceTree (cfg : Config) where
  dir : Dir
  absolute : Absolute cfg.driveSep cfg.source
  wellFormed : dir.WellFormed cfg.driveSep
  length_lt : ∀ p ∈ dir.paths cfg.source, p.length < maxPathname

/-- The files and directories of the source with their counterparts under the root. -/
def SourceTree.entries {cfg : Config} (tree : SourceTree cfg) : List Entry :=
  tree.dir.entries cfg.source cfg.root

def verdict (entries : List Entry) (stat : Path → FileStat) (row : Row) : Stat :=
  match entries.find? fun e => e.target = row.path with
  | none => .removed
  | some e => if stat e.source = ⟨row.size, row.mtime, row.ctime⟩ then .synchronised else .updated

/-- Every listed path has its mark, and every path of the source without a listed counterpart is there
once as added. -/
def Right (entries : List Entry) (stat : Path → FileStat) (main table : List Row) : Prop :=
  (∀ (i : ℕ) row, main[i]? = some row →
    ∃ r, table[i]? = some r ∧ r.path = row.path ∧ r.stat = verdict entries stat row) ∧
  ∀ e ∈ entries, e.target ∉ main.map Row.path → table.countP (fun r => r.path = e.source ∧ r.stat = .added) = 1

/-- If the comparison returns 0, its marks are right. -/
def Classifies {cfg : Config} (tree : SourceTree cfg) (stat : Path → FileStat) (main old : List Row) : Prop :=
  let r := compareSourceAndRootPathTables cfg noFaults stat tree.dir (start main old)
  r.1 = 0 → Right tree.entries stat main r.2.db.compare

def found (cfg : Config) (paths : List Path) (v : Visit) : List Path :=
  match (lookup cfg).selected paths v with
  | none => []
  | some p => paths.filter (cfg.like p)

/-- Every entry finds its own counterpart if that is listed, and nothing otherwise. `added` are the paths
of the entries before that are not listed. -/
def Separate (cfg : Config) (listed : List Path) : List Path → List Entry → Prop
  | _, [] => True
  | added, e :: es =>
    found cfg (listed ++ added) e.visit = (if e.target ∈ listed then [e.target] else []) ∧
      Separate cfg listed (if e.target ∈ listed then added else added ++ [e.source]) es

/-- Reading the numbers of a listed row as `int` does not make them equal or different to those of its
counterpart. -/
def Legible (entries : List Entry) (stat : Path → FileStat) (main : List Row) : Prop :=
  ∀ row ∈ main, ∀ e ∈ entries, e.target = row.path →
    (stat e.source = ⟨row.size, row.mtime, row.ctime⟩ ↔ stat e.source = row.fileStat)

section Tables
variable (cfg : Config) (stat : Path → FileStat) (main : List Row)

def mark (es : List Entry) (row : Row) : Row :=
  match es.find? fun e => e.target = row.path with
  | none => { row.copied with stat := .removed }
  | some e => setRow (stat e.source).toInt
      (if stat e.source ≠ row.fileStat then .updated else .synchronised) row.copied

def unlisted (es : List Entry) : List Entry := es.filter fun e => e.target ∉ main.map Row.path

def expected (es : List Entry) : List Row :=
  main.map (mark stat es) ++ (unlisted main es).map fun e => newRow cfg (stat e.source) e.visit .added

end Tables

section Lemmas
variable {cfg : Config} {stat : Path → FileStat} {main old : List Row} {es : List Entry} {e : Entry} {row : Row}
  {tree : SourceTree cfg} {paths : List Path} {v : Visit}

@[simp] theorem path_mark : (mark stat es row).path = row.path := by
  unfold mark
  split <;> rfl

theorem map_path_expected : (expected cfg stat main es).map Row.path =
    main.map Row.path ++ (unlisted main es).map Entry.source := by
  unfold expected
  rw [map_append, map_map, map_map]
  congr 1
  apply map_congr_left
  intro row _
  exact path_mark

theorem mark_append_of_ne (h : row.path ≠ e.target) : mark stat (es ++ [e]) row = mark stat es row := by
  have hfind : ((es ++ [e]).find? fun e => e.target = row.path) = es.find? fun e => e.target = row.path := by
    rw [find?_append, find?_cons_of_neg (by simpa using h.symm), find?_nil, Option.or_none]
  rw [mark, hfind, mark]

theorem find_target_of_notMem {p : Path} (h : p ∉ es.map Entry.target) : (es.find? fun e => e.target = p) = none := by
  simpa using h

theorem fileStat_copied : { row.copied with stat := .removed }.fileStat = row.fileStat := by
  simp only [Row.fileStat, FileStat.toInt, Row.copied, toInt_toInt]

theorem put_mark (hrow : row.path = e.target) (h : row.path ∉ es.map Entry.target) :
    (upsert cfg stat).put e.visit (mark stat es row) (mark stat es row) = mark stat (es ++ [e]) row := by
  have hfind : ((es ++ [e]).find? fun e => e.target = row.path) = some e := by
    rw [find?_append, find_target_of_notMem h, Option.none_or, find?_cons_of_pos (by simpa using hrow.symm)]
  rw [mark, find_target_of_notMem h, mark, hfind]
  simp only [upsert, fileStat_copied]
  rfl

theorem found_eq_nil_iff : found cfg paths v = [] ↔ (lookup cfg).selected paths v = none := by
  unfold found
  cases h : (lookup cfg).selected paths v with
  | none => simp
  | some p =>
    have hmem : p ∈ paths.filter (cfg.like p) :=
      mem_filter.2 ⟨mem_of_find?_eq_some h, cfg.like_self p⟩
    simpa using ne_nil_of_mem hmem

theorem selected_of_found {t : Path} (h : found cfg paths v = [t]) :
    (lookup cfg).selected paths v = some t ∧ paths.filter (cfg.like t) = [t] := by
  unfold found at h
  split at h
  · cases h
  next p hsel =>
    have hmem : p ∈ paths.filter (cfg.like p) :=
      mem_filter.2 ⟨mem_of_find?_eq_some hsel, cfg.like_self p⟩
    rw [h, mem_singleton] at hmem
    subst hmem
    exact ⟨hsel, h⟩

theorem unlisted_append : unlisted main (es ++ [e]) =
    unlisted main es ++ if e.target ∈ main.map Row.path then [] else [e] := by
  unfold unlisted
  rw [filter_append]
  by_cases h : e.target ∈ main.map Row.path
  · rw [if_pos h, filter_cons_of_neg (by simpa using h), filter_nil]
  · rw [if_neg h, filter_cons_of_pos (by simpa using h), filter_nil]

theorem touch_expected_of_notMem (htarget : e.target ∉ main.map Row.path)
    (h : found cfg (main.map Row.path ++ (unlisted main es).map Entry.source) e.visit = []) :
    (upsert cfg stat).touch (expected cfg stat main es) e.visit = expected cfg stat main (es ++ [e]) := by
  have hfind : (upsert cfg stat).find (expected cfg stat main es) e.visit = none := by
    refine Option.map_eq_none_iff.1 (Upsert.selected_map_key.symm.trans ?_)
    have hpaths : (expected cfg stat main es).map (upsert cfg stat).key = _ := map_path_expected
    rw [hpaths]
    exact found_eq_nil_iff.1 h
  have hmark : main.map (mark stat (es ++ [e])) = main.map (mark stat es) := by
    apply map_congr_left
    intro row hrow
    apply mark_append_of_ne
    intro heq
    exact htarget (heq ▸ mem_map_of_mem hrow)
  rw [Upsert.touch_of_find_none hfind, expected, expected, hmark, unlisted_append, if_neg htarget,
    map_append, append_assoc]
  rfl

theorem not_like_of_found (htarget : e.target ∈ main.map Row.path)
    (h : (main.map Row.path ++ (unlisted main es).map Entry.source).filter (cfg.like e.target) = [e.target]) :
    (∀ row ∈ main, row.path ≠ e.target → ¬ cfg.like e.target row.path = true) ∧
      ∀ e' ∈ unlisted main es, ¬ cfg.like e.target e'.source = true := by
  have hself : e.target ∈ (main.map Row.path).filter (cfg.like e.target) :=
    mem_filter.2 ⟨htarget, cfg.like_self _⟩
  rw [filter_append] at h
  obtain ⟨hnil, -⟩ | ⟨hmain, hadded⟩ := append_eq_singleton_iff.1 h
  · rw [hnil] at hself
    cases hself
  constructor
  · intro row hrow hne hlike
    have hmem : row.path ∈ (main.map Row.path).filter (cfg.like e.target) :=
      mem_filter.2 ⟨mem_map_of_mem hrow, hlike⟩
    rw [hmain, mem_singleton] at hmem
    exact hne hmem
  · intro e' he' hlike
    exact absurd hlike (filter_eq_nil_iff.1 hadded _ (mem_map_of_mem he'))

theorem touch_expected_of_mem (hnodup : (main.map Row.path).Nodup) (htarget : e.target ∈ main.map Row.path)
    (hnew : e.target ∉ es.map Entry.target)
    (h : found cfg (main.map Row.path ++ (unlisted main es).map Entry.source) e.visit = [e.target]) :
    (upsert cfg stat).touch (expected cfg stat main es) e.visit = expected cfg stat main (es ++ [e]) := by
  obtain ⟨hsel, hfilter⟩ := selected_of_found h
  obtain ⟨hother, hnone⟩ := not_like_of_found htarget hfilter
  -- the row that was found
  have hpaths : (expected cfg stat main es).map (upsert cfg stat).key = _ := map_path_expected
  rw [← hpaths] at hsel
  obtain ⟨r, hr, hfind, hkey⟩ := Upsert.exists_find_of_selected hsel
  obtain ⟨first, hfirst, rfl, hpath⟩ : ∃ row ∈ main, mark stat es row = r ∧ row.path = e.target := by
    rcases mem_append.1 hr with hr | hr
    · obtain ⟨row, hrow, rfl⟩ := mem_map.1 hr
      exact ⟨row, hrow, rfl, path_mark.symm.trans hkey⟩
    · obtain ⟨e', he', rfl⟩ := mem_map.1 hr
      exact absurd (cfg.like_self e.target) (hkey ▸ hnone e' he')
  rw [Upsert.touch_of_find_some hfind, hkey, expected, map_append, map_map, map_map, expected, unlisted_append,
    if_pos htarget, append_nil]
  congr 1
  · refine map_congr_left fun row hrow => ?_
    change (if cfg.like e.target (mark stat es row).path then _ else mark stat es row) = _
    rw [path_mark]
    by_cases heq : row.path = e.target
    · obtain rfl : row = first := inj_on_of_nodup_map hnodup hrow hfirst (heq.trans hpath.symm)
      rw [heq, if_pos (cfg.like_self _), put_mark heq (heq ▸ hnew)]
    · rw [if_neg (hother row hrow heq), mark_append_of_ne heq]
  · exact map_congr_left fun e' he' => if_neg (hnone e' he')

theorem run_expected (hnodup : (main.map Row.path).Nodup) (pre : List Entry)
    (htargets : ((pre ++ es).map Entry.target).Nodup)
    (h : Separate cfg (main.map Row.path) ((unlisted main pre).map Entry.source) es) :
    (upsert cfg stat).run (expected cfg stat main pre) (es.map Entry.visit) = expected cfg stat main (pre ++ es) := by
  induction es generalizing pre with
  | nil => rw [append_nil, map_nil, Upsert.run_nil]
  | cons e es ih =>
    have hnew : e.target ∉ pre.map Entry.target := by
      rw [map_append] at htargets
      intro hmem
      exact (nodup_append.1 htargets).2.2 _ hmem _ mem_cons_self rfl
    have hsnoc : pre ++ e :: es = (pre ++ [e]) ++ es := by simp
    rw [map_cons, Upsert.run_cons, hsnoc]
    rw [hsnoc] at htargets
    by_cases htarget : e.target ∈ main.map Row.path
    · rw [Separate, if_pos htarget, if_pos htarget] at h
      rw [touch_expected_of_mem hnodup htarget hnew h.1]
      apply ih _ htargets
      rw [unlisted_append, if_pos htarget, append_nil]
      exact h.2
    · rw [Separate, if_neg htarget, if_neg htarget] at h
      rw [touch_expected_of_notMem htarget h.1]
      apply ih _ htargets
      rw [unlisted_append, if_neg htarget, map_append]
      exact h.2

theorem stat_mark_iff (htargets : (es.map Entry.target).Nodup) :
    (mark stat es row).stat = verdict es stat row ↔ ∀ e ∈ es, e.target = row.path →
      (stat e.source = ⟨row.size, row.mtime, row.ctime⟩ ↔ stat e.source = row.fileStat) := by
  by_cases hex : ∃ e ∈ es, e.target = row.path
  · obtain ⟨e, he, htarget⟩ := hex
    have hfind := Lib13.find?_of_nodup htargets he
    rw [htarget] at hfind
    simp only [mark, verdict, hfind, setRow]
    have honly : ∀ e' ∈ es, e'.target = row.path → e' = e := fun e' he' htarget' =>
      inj_on_of_nodup_map htargets he' he (htarget'.trans htarget.symm)
    constructor
    · intro hstat e' he' htarget'
      split_ifs at hstat <;> simp_all
    · intro hiff
      split_ifs <;> simp_all
  · simp only [mark, verdict, find_target_of_notMem (fun h => hex (mem_map.1 h)), true_iff]
    intro e he htarget
    exact absurd ⟨e, he, htarget⟩ hex

theorem countP_expected (hsources : (es.map Entry.source).Nodup) (he : e ∈ es)
    (htarget : e.target ∉ main.map Row.path) :
    (expected cfg stat main es).countP (fun r => r.path = e.source ∧ r.stat = .added) = 1 := by
  have hmark : (main.map (mark stat es)).countP (fun r => r.path = e.source ∧ r.stat = .added) = 0 := by
    rw [countP_eq_zero]
    intro r hr
    obtain ⟨row, -, rfl⟩ := mem_map.1 hr
    have hne : (mark stat es row).stat ≠ .added := by
      unfold mark
      split
      · simp
      · simp only [setRow]
        split <;> simp
    simp [hne]
  have hcount : ((unlisted main es).map fun e => newRow cfg (stat e.source) e.visit .added).countP
      (fun r => r.path = e.source ∧ r.stat = .added) = ((unlisted main es).map Entry.source).count e.source := by
    rw [countP_map, List.count, countP_map]
    congr 1
    funext e'
    rw [Bool.eq_iff_iff]
    simp [newRow, Entry.visit]
  have hmem : e.source ∈ (unlisted main es).map Entry.source :=
    mem_map_of_mem (mem_filter.2 ⟨he, by simpa using htarget⟩)
  have hnodup : ((unlisted main es).map Entry.source).Nodup :=
    hsources.sublist (filter_sublist.map _)
  rw [expected, countP_append, hmark, hcount, count_eq_one_of_mem hnodup hmem]

theorem right_expected_iff (hsources : (es.map Entry.source).Nodup) (htargets : (es.map Entry.target).Nodup) :
    Right es stat main (expected cfg stat main es) ↔ Legible es stat main := by
  have hget : ∀ {i : ℕ} {row}, main[i]? = some row → (expected cfg stat main es)[i]? = some (mark stat es row) := by
    intro i row hrow
    have hlt : i < (main.map (mark stat es)).length := by
      rw [length_map]
      exact (List.getElem?_eq_some_iff.1 hrow).1
    rw [expected, getElem?_append_left hlt, getElem?_map, hrow, Option.map_some]
  constructor
  · intro h row hrow
    obtain ⟨i, hi⟩ := mem_iff_getElem?.1 hrow
    obtain ⟨r, hr, -, hstat⟩ := h.1 i row hi
    obtain rfl : r = mark stat es row := Option.some.inj (hr.symm.trans (hget hi))
    exact (stat_mark_iff htargets).1 hstat
  · intro h
    refine ⟨fun i row hi => ?_, fun e he htarget => countP_expected hsources he htarget⟩
    exact ⟨_, hget hi, path_mark, (stat_mark_iff htargets).2 (h row (mem_of_getElem? hi))⟩

theorem classifies_iff_right :
    Classifies tree stat main old ↔ Right tree.entries stat main (compared cfg stat tree.dir main) := by
  obtain ⟨fn, m, hcompare, -⟩ := compare_quiet cfg stat tree.dir main old 0
  unfold Classifies start
  simp only [hcompare, forall_true_left]

section
variable (tree : SourceTree cfg)

theorem SourceTree.nodup_sources : (tree.entries.map Entry.source).Nodup := by
  rw [entries, (Dir.map_entries ..).1]
  exact Dir.nodup_paths tree.wellFormed _

theorem SourceTree.nodup_targets : (tree.entries.map Entry.target).Nodup := by
  rw [entries, (Dir.map_entries ..).2]
  exact Dir.nodup_paths tree.wellFormed _

theorem SourceTree.walk_eq (hown : tree.dir.NoStep13Dir) : cfg.walk tree.dir = tree.entries.map Entry.visit :=
  Dir.walk_eq tree.absolute tree.wellFormed tree.length_lt hown _

end

/-- If every entry finds its own counterpart, the marks are right as far as the numbers are read. -/
theorem right_iff_of_separate (hown : tree.dir.NoStep13Dir)
    (hnodup : (main.map Row.path).Nodup) (h : Separate cfg (main.map Row.path) [] tree.entries) :
    Right tree.entries stat main (compared cfg stat tree.dir main) ↔ Legible tree.entries stat main := by
  have hrun : (upsert cfg stat).run (expected cfg stat main []) (tree.entries.map Entry.visit) =
      expected cfg stat main ([] ++ tree.entries) := run_expected hnodup [] tree.nodup_targets h
  rw [show expected cfg stat main [] = unseen main by simp [expected, unseen, unlisted, mark]] at hrun
  rw [compared, tree.walk_eq hown, hrun]
  exact right_expected_iff tree.nodup_sources tree.nodup_targets

end Lemmas
end Prj.Step13
