import Mathlib.Data.List.Perm.Basic
import Prj.Step13.Db

/-!
`update` empties the main list and copies the compare table into it.

After the walk `run_query_fn` is still `set_update_stat`, so that the first row that is copied looks like
an error and ends the copy. A failed comparison does not stop the update, `compare` returns 0 in any case.
-/
namespace Prj.Step13
open Prj.Base List

def start (main old : List Row) : Sys := ⟨⟨main, old⟩, none, 0⟩

def Row.data (row : Row) : Path × ℤ × ℤ × ℤ × Path × Path :=
  (row.path, row.ctime, row.mtime, row.size, row.tags, row.comment)

/-- If `update` returns 0, the main list has one row for each row of the compare table that is not
marked as removed, and all its rows are marked as synchronised. -/
def Updates (cfg : Config) (stat : Path → FileStat) (source : Dir) (main old : List Row) : Prop :=
  let r := update cfg noFaults stat source (start main old)
  r.1 = 0 → (∀ row ∈ r.2.db.main, row.stat = .synchronised) ∧
    (r.2.db.main.map Row.data).Perm ((kept r.2.db.compare).map Row.data)

section Lemmas
variable {cfg : Config} {stat : Path → FileStat} {source : Dir} {main old : List Row} {row : Row} {i : ℕ}

theorem map_path_unseen : (unseen main).map Row.path = main.map Row.path := by
  rw [unseen, map_map]
  rfl

/-- The numbers are such that reading them does not change them. -/
def Row.Narrow (row : Row) : Prop :=
  toInt row.ctime = row.ctime ∧ toInt row.mtime = row.mtime ∧ toInt row.size = row.size

theorem toInt_toInt (z : ℤ) : toInt (toInt z) = toInt z := Int.bmod_bmod

theorem narrow_of_mem_compared (h : row ∈ compared cfg stat source main) : row.Narrow := by
  refine Upsert.forall_mem_run ?_ ?_ ?_ row h
  · intro row hrow
    obtain ⟨old, -, rfl⟩ := mem_map.1 hrow
    exact ⟨toInt_toInt _, toInt_toInt _, toInt_toInt _⟩
  · intro v _ r r' _
    exact ⟨toInt_toInt _, toInt_toInt _, toInt_toInt _⟩
  · intro v _
    exact ⟨toInt_toInt _, toInt_toInt _, toInt_toInt _⟩

theorem map_path_compared : (compared cfg stat source main).map Row.path =
    (lookup cfg).growAll (main.map Row.path) (cfg.walk source) := by
  have hrun : (compared cfg stat source main).map (upsert cfg stat).key =
      (lookup cfg).growAll ((unseen main).map Row.path) (cfg.walk source) := Upsert.map_key_run
  rwa [map_path_unseen] at hrun

theorem stat_put_ne_removed (v : Visit) (r r' : Row) : ((upsert cfg stat).put v r r').stat ≠ .removed := by
  simp only [upsert, setRow]
  split <;> simp

/-- The rows of the compare table that are kept are those that the walk came to. -/
theorem stat_ne_removed_iff (h : (compared cfg stat source main)[i]? = some row) :
    row.stat ≠ .removed ↔ (lookup cfg).Written (main.map Row.path) (cfg.walk source) i := by
  have hlt : i < ((lookup cfg).growAll (main.map Row.path) (cfg.walk source)).length := by
    rw [← map_path_compared, List.length_map]
    exact (List.getElem?_eq_some_iff.1 h).1
  rw [← map_path_unseen] at hlt ⊢
  constructor
  · intro hne
    refine ⟨hlt, fun hun => hne ?_⟩
    obtain ⟨first, hfirst⟩ : ∃ first, (unseen main)[i]? = some first :=
      ⟨_, getElem?_eq_getElem (by simpa using hun.1)⟩
    have hsame : (compared cfg stat source main)[i]? = some first :=
      Upsert.run_getElem?_of_unhit hfirst hun.2
    obtain rfl : row = first := Option.some.inj (h.symm.trans hsame)
    obtain ⟨r, -, rfl⟩ := mem_map.1 (mem_of_getElem? hfirst)
    rfl
  · intro hwritten hstat
    have hback := Upsert.getElem?_of_run (B := fun row => row.stat = .removed)
      (fun v _ r r' => stat_put_ne_removed v r r') (fun v _ => by simp [upsert, newRow]) h hstat
    have hi : i < (unseen main).length := (List.getElem?_eq_some_iff.1 hback.1).1
    exact hwritten.2 ⟨by simpa using hi, hback.2⟩

theorem length_kept_compared_le_one_iff : (kept (compared cfg stat source main)).length ≤ 1 ↔
    (lookup cfg).Single (main.map Row.path) (cfg.walk source) := by
  rw [kept, length_filter_le_one_iff, Lookup.single_iff]
  constructor
  · intro h i j hi hj
    have hrow : ∀ {k}, (lookup cfg).Written (main.map Row.path) (cfg.walk source) k →
        ∃ row, (compared cfg stat source main)[k]? = some row := by
      intro k hk
      have hlt := hk.1
      have hkeys : (compared cfg stat source main).map Row.path = _ := map_path_compared
      rw [← hkeys, List.length_map] at hlt
      exact ⟨_, getElem?_eq_getElem hlt⟩
    obtain ⟨a, ha⟩ := hrow hi
    obtain ⟨b, hb⟩ := hrow hj
    exact h i j a b ha hb (decide_eq_true ((stat_ne_removed_iff ha).2 hi))
      (decide_eq_true ((stat_ne_removed_iff hb).2 hj))
  · intro h i j a b ha hb hka hkb
    exact h i j ((stat_ne_removed_iff ha).1 (of_decide_eq_true hka))
      ((stat_ne_removed_iff hb).1 (of_decide_eq_true hkb))

theorem kept_compared_of_walk_nil (h : cfg.walk source = []) : kept (compared cfg stat source main) = [] := by
  rw [kept, compared, h, filter_eq_nil_iff]
  intro row hrow
  obtain ⟨r, -, rfl⟩ := mem_map.1 hrow
  simp

theorem update_take (cfg : Config) (stat : Path → FileStat) (source : Dir) (main old : List Row) :
    ∃ s, update cfg noFaults stat source (start main old) = (0, s) ∧ s.db.compare = compared cfg stat source main ∧
    s.db.main = ((kept (compared cfg stat source main)).take 1).map
      fun row => { row.copied with stat := .synchronised } := by
  obtain ⟨s, hret, hcompare, hmain⟩ := update_quiet cfg stat source main old 0
  refine ⟨s, hret, hcompare, hmain.trans ?_⟩
  by_cases hwalk : cfg.walk source = []
  · rw [if_pos hwalk, kept_compared_of_walk_nil hwalk, take_nil]
  · rw [if_neg hwalk]

theorem map_data_take : (((kept (compared cfg stat source main)).take 1).map
      fun row => { row.copied with stat := .synchronised }).map Row.data =
    ((kept (compared cfg stat source main)).take 1).map Row.data := by
  rw [map_map]
  apply map_congr_left
  intro row hrow
  have h := narrow_of_mem_compared (mem_of_mem_filter (mem_of_mem_take hrow))
  simp only [Function.comp_apply, Row.data, Row.copied, h.1, h.2.1, h.2.2]

theorem updates_iff_length : Updates cfg stat source main old ↔ (kept (compared cfg stat source main)).length ≤ 1 := by
  obtain ⟨s, hupdate, hcompare, hmain⟩ := update_take cfg stat source main old
  simp only [Updates, hupdate, hcompare, hmain, map_data_take, forall_true_left]
  constructor
  · intro h
    have hlen := h.2.length_eq
    rw [List.length_map, List.length_map, length_take] at hlen
    omega
  · intro h
    rw [take_of_length_le h]
    refine ⟨?_, List.Perm.refl _⟩
    intro row hrow
    obtain ⟨r, -, rfl⟩ := mem_map.1 hrow
    rfl

end Lemmas

/-- An update is right if and only if the walk comes to one row at most. -/
theorem updates_iff (cfg : Config) (stat : Path → FileStat) (source : Dir) (main old : List Row) :
    Updates cfg stat source main old ↔ (lookup cfg).Single (main.map Row.path) (cfg.walk source) := by
  rw [updates_iff_length, length_kept_compared_le_one_iff]

def plainConfig : Config where
  driveSep := none
  source := ascii ['/', 's']
  root := ascii ['/', 'r']
  comment := none
  tags := none
  decode bytes := bytes.map fun b => Char.ofNat b.toNat
  fold := id
  hash _ := []

def emptyStat : Path → FileStat := fun _ => ⟨0, 0, 0⟩

/-- Of two new files one gets to the main list. -/
theorem not_updates_two : ¬ Updates plainConfig emptyStat (.file (ascii ['a']) (.file (ascii ['b']) .nil)) [] [] := by
  rw [updates_iff_length]
  decide

def ComparisonFails (cfg : Config) (faults : Faults) (stat : Path → FileStat) (source : Dir) (s : Sys) : Prop :=
  ∃ n, s.calls ≤ n ∧ n < (compare cfg faults stat source s).2.calls ∧ faults n ≠ none

/-- After a failed comparison `update` fails and leaves the main list alone. -/
def Guarded (cfg : Config) (faults : Faults) (stat : Path → FileStat) (source : Dir) (s : Sys) : Prop :=
  ComparisonFails cfg faults stat source s →
    (update cfg faults stat source s).1 ≠ 0 ∧ (update cfg faults stat source s).2.db.main = s.db.main

theorem update_ret (cfg : Config) (faults : Faults) (stat : Path → FileStat) (source : Dir) (s : Sys) :
    (update cfg faults stat source s).1 = 0 := rfl

/-- `update` does not notice any failure. -/
theorem guarded_iff (cfg : Config) (faults : Faults) (stat : Path → FileStat) (source : Dir) (s : Sys) :
    Guarded cfg faults stat source s ↔ ¬ ComparisonFails cfg faults stat source s := by
  constructor
  · intro h hfails
    exact (h hfails).1 (update_ret cfg faults stat source s)
  · intro h hfails
    exact absurd hfails h

def plainRow : Row := ⟨ascii ['/', 'r', '/', 'a'], .file, 0, 0, 0, [], [], [], 1, .synchronised⟩

/-- The call of `scandir` on the source directory fails. -/
def noSource : Faults := fun n => if n = 22 then some id else none

/-- The source directory cannot be read: `update` returns 0 and the main list is lost. -/
theorem not_guarded_noSource : ¬ Guarded plainConfig noSource emptyStat .nil (start [plainRow] []) ∧
    (update plainConfig noSource emptyStat .nil (start [plainRow] [])).2.db.main = [] := by
  constructor
  · intro h
    have hfails : ComparisonFails plainConfig noSource emptyStat .nil (start [plainRow] []) :=
      ⟨22, by decide, by decide, by simp [noSource]⟩
    exact (h hfails).1 (update_ret _ _ _ _ _)
  · decide

end Prj.Step13
