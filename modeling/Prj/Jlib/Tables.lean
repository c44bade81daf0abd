import Prj.Base.Image
import Prj.Jlib.BlockMap
import Prj.Jlib.Jcs

/-!
Creating, finding, loading and removing the tables of a database (`jlib/src/jdb_table.c`).

A table is known in the map by a number, the hash of its name. The handle is open; its counters, the journal
and the contents of the blocks are left out.
-/
namespace Prj.Jlib.Db
open Prj.Base List

structure OpenTable where
  name : WStr
  nrows : UInt32
  ncols : UInt32
  flags : UInt8
  indexes : UInt16

structure Database where
  h : Handle
  blocksize : ℕ
  /-- The tables of `table_list`. -/
  tables : List OpenTable
  /-- A table is opened once. -/
  names_nodup : (tables.map fun t => t.name.chars).Nodup

/-- `_jdb_get_tid`: the characters have four bytes, the terminator counts. -/
def getTid (name : WStr) : UInt32 := jdbHash ((name.chars ++ [0]).flatMap (littleEndian 4))

def byTid (tid : UInt32) : MapCmp where
  tid := some tid

def byType (btype : UInt8) (tid : UInt32) : MapCmp where
  btype := some btype
  tid := some tid

section Calls
variable (db : Database)

def Database.IsOpen (name : WStr) : Prop := ∃ t ∈ db.tables, t.name.chars = name.chars

instance (name : WStr) : Decidable (db.IsOpen name) :=
  inferInstanceAs (Decidable (∃ t ∈ db.tables, t.name.chars = name.chars))

def findTable (name : WStr) : Except Err Unit :=
  if db.IsOpen name then .ok ()
  else if (findFirstMapMatch db.h.maps (byTid (getTid name))).isSome then .ok ()
  else .error .notfound

/-- The room for a name in the block of a table definition; the header has 34 bytes. -/
def nameLimit : ℕ := db.blocksize - (34 + 1)

def createTable (t : OpenTable) : Except Err Unit × Database :=
  if (findFirstMapMatch db.h.maps (byTid (getTid t.name))).isSome then (.error .exist, db)
  else if wtojcsLen t.name (nameLimit db) = none then (.error .toolong, db)
  else
    match getEmptyMapEntry db.h btypeTableDef 0 (getTid t.name) 0 with
    | none => (.error .limit, db)
    | some (_, h) =>
      if hopen : db.IsOpen t.name then (.error .exist, { db with h := h })
      else
        (.ok (), { db with
          h := h
          tables := db.tables ++ [t]
          names_nodup := by
            rw [List.map_append, List.nodup_append]
            refine ⟨db.names_nodup, List.nodup_singleton _, ?_⟩
            intro cs hcs cs' hcs' heq
            obtain ⟨t', ht', rfl⟩ := List.mem_map.1 hcs
            rw [List.map_singleton, List.mem_singleton] at hcs'
            exact hopen ⟨t', ht', heq.trans hcs'⟩ })

/-- The table leaves `table_list`, and the entries with its number lose their type. -/
def rmTable (name : WStr) : Except Err Unit × Database :=
  if db.IsOpen name then
    (.ok (), { db with
      h := rmMapEntriesByTid db.h (getTid name)
      tables := db.tables.eraseP fun t => t.name.chars == name.chars
      names_nodup := db.names_nodup.sublist (List.eraseP_sublist.map _) })
  else (.error .notfound, db)

/-- The types of the blocks that `_jdb_load_table` reads. -/
def loadTypes : List UInt8 :=
  [btypeTypeDef, btypeColTypedef, btypeCelldef, btypeCellDataPtr, btypeTableFav]

/-- The blocks that `_jdb_load_table` reads: the definition of the table, and a list for each type. -/
def loadTable {bent : ℕ} (maps : List (JMap bent)) (tid : UInt32) : Except Err (ℕ × List (List ℕ)) :=
  match findFirstMapMatch maps (byType btypeTableDef tid) with
  | none => .error .notfound
  | some bid => .ok (bid, loadTypes.map fun btype => listMapMatch maps (byType btype tid))

end Calls

section Matches
variable {bent : ℕ} {maps : List (JMap bent)} {c : MapCmp} {tid : UInt32} {e : MapBlkEntry} {tid' : UInt32}
  {btype : UInt8}

theorem JMap.find_eq_none {map : JMap bent} {p : MapBlkEntry → Bool} :
    map.find p = none ↔ ∀ i, p (map.entry i) = false := by
  rw [JMap.find, find?_eq_none]
  constructor
  · intro h i
    exact Bool.eq_false_iff.2 (h i (mem_finRange i))
  · intro h i _
    rw [h i]
    exact Bool.false_ne_true

theorem findFirstMapMatch_eq_none :
    findFirstMapMatch maps c = none ↔ ∀ map ∈ maps, ∀ i, c.matches (map.entry i) = false := by
  rw [findFirstMapMatch, findSome?_eq_none_iff]
  simp only [Option.map_eq_none_iff, JMap.find_eq_none]

theorem byTid_matches : (byTid tid).matches e = (tid == e.tid) := by
  simp [byTid, MapCmp.matches]

theorem tid_clearTid : (clearTid tid e).tid = e.tid := by
  unfold clearTid
  split_ifs
  · rfl
  · rfl

theorem clearTid_of_ne (h : e.tid ≠ tid) : clearTid tid e = e := if_neg h

theorem findFirstMapMatch_byTid_clearTid : findFirstMapMatch (maps.map (JMap.clearTid tid)) (byTid tid') = none ↔
      findFirstMapMatch maps (byTid tid') = none := by
  rw [findFirstMapMatch_eq_none, findFirstMapMatch_eq_none, forall_mem_map]
  simp only [JMap.clearTid, byTid_matches, tid_clearTid]

theorem byType_matches_clearTid_of_ne (hne : tid' ≠ tid) :
    (byType btype tid').matches (clearTid tid e) = (byType btype tid').matches e := by
  by_cases he : e.tid = tid
  · have hbeq : (tid' == tid) = false := beq_eq_false_iff_ne.2 hne
    simp [byType, MapCmp.matches, tid_clearTid, he, hbeq]
  · rw [clearTid_of_ne he]

theorem byType_matches_clearTid (hne : btype ≠ btypeEmpty) : (byType btype tid).matches (clearTid tid e) = false := by
  by_cases he : e.tid = tid
  · have hbeq : (btype == btypeEmpty) = false := beq_eq_false_iff_ne.2 hne
    simp [byType, MapCmp.matches, clearTid, he, hbeq]
  · have hbeq : (tid == e.tid) = false := beq_eq_false_iff_ne.2 (Ne.symm he)
    simp [byType, MapCmp.matches, clearTid_of_ne he, hbeq]

theorem findFirstMapMatch_clearTid (h : ∀ e, c.matches (clearTid tid e) = c.matches e) :
    findFirstMapMatch (maps.map (JMap.clearTid tid)) c = findFirstMapMatch maps c := by
  unfold findFirstMapMatch
  rw [findSome?_map]
  congr 1
  funext map
  simp only [Function.comp_apply, JMap.find, JMap.clearTid, h]

theorem listMapMatch_clearTid (h : ∀ e, c.matches (clearTid tid e) = c.matches e) :
    listMapMatch (maps.map (JMap.clearTid tid)) c = listMapMatch maps c := by
  unfold listMapMatch
  rw [flatMap_map]
  congr 1
  funext map
  simp only [JMap.matchBids, JMap.clearTid, h]

theorem loadTable_clearTid_of_ne (hne : tid' ≠ tid) :
    loadTable (maps.map (JMap.clearTid tid)) tid' = loadTable maps tid' := by
  have hmatch : ∀ btype e, (byType btype tid').matches (clearTid tid e) = (byType btype tid').matches e :=
    fun _ _ => byType_matches_clearTid_of_ne hne
  unfold loadTable
  simp only [findFirstMapMatch_clearTid (hmatch _), listMapMatch_clearTid (hmatch _)]

/-- A table with the number of the removed one does not load, whatever its name. -/
theorem loadTable_clearTid : loadTable (maps.map (JMap.clearTid tid)) tid = .error .notfound := by
  have hnone : findFirstMapMatch (maps.map (JMap.clearTid tid)) (byType btypeTableDef tid) = none := by
    rw [findFirstMapMatch_eq_none, forall_mem_map]
    intro map _ i
    exact byType_matches_clearTid (by decide)
  rw [loadTable, hnone]

end Matches

section Removal
variable {db : Database} {name : WStr}

/-- After a removal that succeeds the table is not found, can be created again, and every other table loads as
before. -/
structure Removes (db : Database) (name : WStr) : Prop where
  gone : (rmTable db name).1 = .ok () → findTable (rmTable db name).2 name = .error .notfound
  again : (rmTable db name).1 = .ok () → ∀ t : OpenTable, t.name = name → wtojcsLen name (nameLimit db) ≠ none →
    getEmptyMapEntry (rmTable db name).2.h btypeTableDef 0 (getTid name) 0 ≠ none →
    (createTable (rmTable db name).2 t).1 = .ok ()
  others : (rmTable db name).1 = .ok () → ∀ name' : WStr, name'.chars ≠ name.chars →
    loadTable (rmTable db name).2.h.maps (getTid name') = loadTable db.h.maps (getTid name')

def Database.HasEntry (db : Database) (name : WStr) : Prop :=
  ∃ map ∈ db.h.maps, ∃ i, (map.entry i).tid = getTid name

theorem hasEntry_iff : db.HasEntry name ↔ findFirstMapMatch db.h.maps (byTid (getTid name)) ≠ none := by
  rw [Ne, findFirstMapMatch_eq_none]
  simp only [Database.HasEntry, byTid_matches, not_forall, exists_prop, Bool.not_eq_false, beq_iff_eq]
  simp only [eq_comm]

theorem rmTable_of_isOpen (hopen : db.IsOpen name) : (rmTable db name).1 = .ok () ∧
    (rmTable db name).2.h = rmMapEntriesByTid db.h (getTid name) ∧
    (rmTable db name).2.tables = db.tables.eraseP fun t => t.name.chars == name.chars := by
  rw [rmTable, if_pos hopen]
  exact ⟨rfl, rfl, rfl⟩

/-- What the other tables lose: nothing, or everything if the hash of the name is the same. -/
theorem loadTable_rmTable (hopen : db.IsOpen name) (name' : WStr) :
    loadTable (rmTable db name).2.h.maps (getTid name') =
      if getTid name' = getTid name then .error .notfound else loadTable db.h.maps (getTid name') := by
  rw [(rmTable_of_isOpen hopen).2.1]
  split_ifs with htid
  · rw [htid]
    exact loadTable_clearTid
  · exact loadTable_clearTid_of_ne htid

theorem not_isOpen_rmTable (hopen : db.IsOpen name) : ¬ (rmTable db name).2.IsOpen name := by
  have hnodup := db.names_nodup
  rintro ⟨t, ht, hname⟩
  rw [(rmTable_of_isOpen hopen).2.2] at ht
  obtain ⟨t', ht', hname'⟩ := hopen
  have hmatch : (t'.name.chars == name.chars) = true := beq_iff_eq.2 hname'
  obtain ⟨u, pre, post, -, hu, hsplit, herase⟩ :=
    exists_of_eraseP (p := fun t => t.name.chars == name.chars) ht' hmatch
  rw [herase] at ht
  rw [hsplit, map_append, map_cons, nodup_middle, nodup_cons] at hnodup
  apply hnodup.1
  rw [← map_append, beq_iff_eq.1 hu, ← hname]
  exact mem_map_of_mem ht

theorem JMap.clearTid_of_ne {bent : ℕ} {map : JMap bent} {tid : UInt32}
    (hne : ∀ i, (map.entry i).tid ≠ tid) : map.clearTid tid = map := by
  have hcount : (List.finRange bent).countP (fun i => (map.entry i).tid == tid) = 0 := by
    rw [countP_eq_zero]
    intro i _
    rw [beq_iff_eq]
    exact hne i
  have hentry : (fun i => Db.clearTid tid (map.entry i)) = map.entry :=
    funext fun i => Db.clearTid_of_ne (hne i)
  rw [JMap.clearTid, hcount, hentry]
  exact congrArg (fun n => (⟨map.bid, n, map.entry⟩ : JMap bent)) (UInt16.sub_zero _)

theorem rmMapEntriesByTid_of_not_hasEntry (h : ¬ db.HasEntry name) : rmMapEntriesByTid db.h (getTid name) = db.h := by
  have hmaps : db.h.maps.map (JMap.clearTid (getTid name)) = db.h.maps := by
    refine (map_congr_left ?_).trans (map_id _)
    intro map hmap
    exact JMap.clearTid_of_ne fun i hi => h ⟨map, hmap, i, hi⟩
  unfold rmMapEntriesByTid
  rw [hmaps]

theorem Removes.not_hasEntry (h : Removes db name) (hopen : db.IsOpen name) : ¬ db.HasEntry name := by
  obtain ⟨hret, hh, -⟩ := rmTable_of_isOpen hopen
  have hgone := h.gone hret
  rw [findTable, if_neg (not_isOpen_rmTable hopen)] at hgone
  split_ifs at hgone with hmatch
  rw [hasEntry_iff, not_not, ← findFirstMapMatch_byTid_clearTid]
  rw [hh] at hmatch
  exact Option.not_isSome_iff_eq_none.1 hmatch

theorem removes_of_not_hasEntry (hopen : db.IsOpen name) (hentry : ¬ db.HasEntry name) : Removes db name := by
  obtain ⟨-, hh, -⟩ := rmTable_of_isOpen hopen
  rw [rmMapEntriesByTid_of_not_hasEntry hentry] at hh
  have hclosed := not_isOpen_rmTable hopen
  have hnone : findFirstMapMatch (rmTable db name).2.h.maps (byTid (getTid name)) = none := by
    rw [hh]
    exact not_not.1 (hasEntry_iff.not.1 hentry)
  refine ⟨fun _ => ?_, fun _ t ht hlen hget => ?_, fun _ name' _ => by rw [hh]⟩
  · rw [findTable, if_neg hclosed, hnone]
    rfl
  · subst ht
    have hsize : nameLimit (rmTable db t.name).2 = nameLimit db := by
      rw [rmTable, if_pos hopen]
      rfl
    obtain ⟨r, hr⟩ := Option.ne_none_iff_exists'.1 hget
    rw [createTable, hnone, if_neg (by simp), if_neg (by rw [hsize]; exact hlen)]
    simp only [hr, dif_neg hclosed]

theorem removes_of_not_isOpen (hopen : ¬ db.IsOpen name) : Removes db name := by
  have hret : (rmTable db name).1 ≠ .ok () := by
    rw [rmTable, if_neg hopen]
    intro h
    cases h
  exact ⟨fun h => absurd h hret, fun h => absurd h hret, fun h => absurd h hret⟩

/-- A removal that succeeds does what it says exactly if no entry of the map has the number of the table. -/
theorem removes_iff (db : Database) (name : WStr) : Removes db name ↔ ¬ db.IsOpen name ∨ ¬ db.HasEntry name := by
  constructor
  · intro h
    by_cases hopen : db.IsOpen name
    · exact .inr (h.not_hasEntry hopen)
    · exact .inl hopen
  · intro h
    by_cases hopen : db.IsOpen name
    · exact removes_of_not_hasEntry hopen (h.resolve_left (not_not.2 hopen))
    · exact removes_of_not_isOpen hopen

def nameA : WStr := ⟨[97], by decide⟩

def oneTable : Database :=
  (createTable ⟨⟨5, by decide, by decide, 100, []⟩, 1024, [], List.nodup_nil⟩ ⟨nameA, 2, 3, 0, 0⟩).2

/-- A table that was created and removed is still found and cannot be created again. -/
theorem not_removes_oneTable :
    (rmTable oneTable nameA).1 = .ok () ∧ findTable (rmTable oneTable nameA).2 nameA = .ok () ∧
      (createTable (rmTable oneTable nameA).2 ⟨nameA, 2, 3, 0, 0⟩).1 = .error .exist ∧
      ¬ Removes oneTable nameA := by
  have hret : (rmTable oneTable nameA).1 = .ok () := by decide
  have hfind : findTable (rmTable oneTable nameA).2 nameA = .ok () := by decide
  refine ⟨hret, hfind, by decide, ?_⟩
  intro h
  have hgone := h.gone hret
  cases hgone

def nameB : WStr := ⟨[98], by decide⟩

def twoTables : Database := (createTable oneTable ⟨nameB, 2, 3, 0, 0⟩).2

theorem loadTable_rmTable_twoTables :
    loadTable (rmTable twoTables nameA).2.h.maps (getTid nameA) = .error .notfound ∧
      loadTable (rmTable twoTables nameA).2.h.maps (getTid nameB) = loadTable twoTables.h.maps (getTid nameB) ∧
      loadTable twoTables.h.maps (getTid nameB) ≠ .error .notfound :=
  ⟨(loadTable_rmTable (by decide) nameA).trans (if_pos rfl),
    (loadTable_rmTable (by decide) nameB).trans (if_neg (by decide)), by decide⟩

end Removal
end Prj.Jlib.Db
