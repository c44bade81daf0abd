import Prj.Lib13.Permission

/-! The ids of the accounts over runs of `acc_user_add` and `acc_user_rm`. -/
namespace Prj.Lib13
open List Option

section Top
variable {R : Type} {col : R → Option ℤ} {rows : List R} {top : R}

theorem dbTop_eq_none_iff : dbTop col rows = none ↔ rows = [] := by
  cases rows with
  | nil => simp [dbTop]
  | cons row rows =>
    unfold dbTop
    split
    · simp
    · split_ifs <;> simp

theorem below_asymm {a b : Option ℤ} (h : below a b = true) : below b a = false := by
  cases a <;> cases b <;> simp [below] at h ⊢
  omega

theorem below_of_not {a b c : Option ℤ} (hab : below a b = false) (hbc : below b c = false) : below a c = false := by
  cases a <;> cases b <;> cases c <;> simp [below] at hab hbc ⊢
  omega

theorem dbTop_spec (h : dbTop col rows = some top) : top ∈ rows ∧ ∀ row ∈ rows, below (col top) (col row) = false := by
  induction rows generalizing top with
  | nil => simp [dbTop] at h
  | cons row rows ih =>
    have hself : below (col row) (col row) = false := by cases col row <;> simp [below]
    unfold dbTop at h
    split at h
    · cases h
      obtain rfl := dbTop_eq_none_iff.1 ‹_›
      simp [hself]
    · rename_i best hbest
      obtain ⟨hmem, hall⟩ := ih hbest
      split_ifs at h with hbelow
      · cases h
        refine ⟨mem_cons_of_mem _ hmem, ?_⟩
        rw [forall_mem_cons]
        exact ⟨below_asymm hbelow, hall⟩
      · cases h
        refine ⟨mem_cons_self, ?_⟩
        rw [forall_mem_cons]
        exact ⟨hself, fun r hr => below_of_not (by simpa using hbelow) (hall r hr)⟩

end Top

section Ids
/-- The id of the account in row `i`: only a byte of the number is stored, and 255 stays the highest. -/
def uidAt (i : ℕ) : ℤ := if i < 255 then i + 1 else 0

structure Numbered (users : List UserRow) : Prop where
  ids : users.map UserRow.id = (List.range users.length).map fun i => some (uidAt i)
  pass : ∀ row ∈ users, row.pass.isSome = true

variable {ac : Access13} {users : List UserRow} {row : UserRow} {name : List Char} {pass : CStr} {k : ℤ}

theorem uidAt_range (i : ℕ) : 0 ≤ uidAt i ∧ uidAt i ≤ 255 := by
  unfold uidAt
  split_ifs <;> omega

theorem numbered_nil : Numbered [] := ⟨rfl, by simp⟩

theorem Numbered.exists_id (h : Numbered users) (hrow : row ∈ users) : ∃ i < users.length, row.id = some (uidAt i) := by
  have hmem : row.id ∈ users.map UserRow.id := mem_map_of_mem hrow
  rw [h.ids] at hmem
  obtain ⟨i, hi, hid⟩ := mem_map.1 hmem
  exact ⟨i, mem_range.1 hi, hid.symm⟩

theorem toNat_columnUint (h0 : 0 ≤ k) (h1 : k ≤ 255) : ((columnUint (some k)).toNat : ℤ) = k := by
  simp only [columnUint, getD_some, BitVec.toNat_ofInt]
  omega

def account (ac : Access13) (name : List Char) (pass : CStr) (id : Option ℤ) : UserRow where
  id := id
  name := some name
  pass := some (ac.passhash pass)
  lastlogin := some 0
  lastlogout := some 0
  stat := some accUsrSttOut

theorem account_not_removed (ac : Access13) (name : List Char) (pass : CStr) (id : Option ℤ) :
    (account ac name pass id).stat ≠ some accUsrSttRemoved := by
  have hstat : some accUsrSttOut ≠ some accUsrSttRemoved := by decide
  exact hstat

def firstRemoved (users : List UserRow) : Option UserRow :=
  users.find? fun row => row.stat = some accUsrSttRemoved

theorem stat_of_firstRemoved (h : firstRemoved users = some row) : row.stat = some accUsrSttRemoved := by
  have hsome := find?_some h
  exact of_decide_eq_true hsome

theorem dbCollect_removed (fold : Char → Char) (users : List UserRow) :
    dbCollect fold 1 [.eq UserRow.stat 32 accUsrSttRemoved] users =
      some (.ok (users.filter fun row => row.stat = some accUsrSttRemoved)) :=
  dbCollect_one rfl []

theorem accGetFreeUid_of_removed (hfind : firstRemoved users = some row) :
    accGetFreeUid ac users false = some (.ok (true, columnUint row.id)) := by
  rw [firstRemoved, ← head?_filter] at hfind
  obtain ⟨rest, hrest⟩ := head?_eq_some_iff.1 hfind
  simp only [accGetFreeUid, dbCollect_removed, hrest, Bool.false_eq_true, if_false]

theorem Numbered.dbTop (h : Numbered users) (hne : users ≠ []) :
    ∃ row, dbTop UserRow.id users = some row ∧ row.id = some ((min users.length 255 : ℕ) : ℤ) := by
  cases htop : Prj.Lib13.dbTop UserRow.id users with
  | none => exact absurd (dbTop_eq_none_iff.1 htop) hne
  | some top =>
    obtain ⟨hmem, hall⟩ := dbTop_spec htop
    obtain ⟨i, hi, hid⟩ := h.exists_id hmem
    refine ⟨top, rfl, ?_⟩
    -- the row that has the highest id of the list is not above it
    generalize hn : min users.length 255 = n
    have hget : (users.map UserRow.id)[n - 1]? = some (some (uidAt (n - 1))) := by
      rw [h.ids, getElem?_map, getElem?_range (by omega), map_some]
    rw [getElem?_map, map_eq_some_iff] at hget
    obtain ⟨row, hrow, hrowid⟩ := hget
    have hle : uidAt (n - 1) ≤ uidAt i := by
      simpa [below, hid, hrowid] using hall row (mem_of_getElem? hrow)
    rw [hid]
    unfold uidAt at hle ⊢
    split_ifs at hle ⊢ <;> congr 1 <;> omega

theorem accGetFreeUid_of_none (ac : Access13) (h : Numbered users) (hfind : firstRemoved users = none) :
    ∃ uid, accGetFreeUid ac users false = some (.ok (false, uid)) ∧ lowByte uid.toNat = uidAt users.length := by
  have hnil : (users.filter fun row => row.stat = some accUsrSttRemoved) = [] := by
    rw [firstRemoved, ← head?_filter] at hfind
    exact head?_eq_none_iff.1 hfind
  simp only [accGetFreeUid, dbCollect_removed, hnil, Bool.false_eq_true, if_false]
  by_cases hne : users = []
  · subst hne
    exact ⟨1, rfl, rfl⟩
  · obtain ⟨row, htop, hid⟩ := h.dbTop hne
    have hnat := toNat_columnUint (k := (min users.length 255 : ℕ)) (by omega) (by omega)
    have hsucc : (columnUint row.id + 1).toNat = min users.length 255 + 1 := by
      rw [hid, BitVec.toNat_add, show (1 : BitVec 32).toNat = 1 from rfl]
      omega
    have hfull : columnUint row.id + 1 ≠ 0xffffffff#32 := by
      intro heq
      rw [heq, show (0xffffffff#32).toNat = 4294967295 from rfl] at hsucc
      omega
    rw [htop]
    simp only [if_neg hfull]
    refine ⟨_, rfl, ?_⟩
    unfold lowByte uidAt
    split_ifs <;> omega

end Ids

section Calls
variable {ac : Access13} {db : AccDb} {users users' : List UserRow} {name : List Char} {pass : CStr}
  {key : Key} {ret : Ret}

/-- What `acc_user_add` does with the user table. -/
inductive Added (ac : Access13) (name : List Char) (pass : CStr) (users : List UserRow) : Ret → List UserRow → Prop
  | refused (e : E13) :
    (name = "allgroups".toList ∨ ∃ r ∈ users, (Key.name name).user.holds ac.fold r = true) →
    Added ac name pass users (.err e) users
  | taken (row : UserRow) : (∀ r ∈ users, r.name ≠ some name) → firstRemoved users = some row →
    Added ac name pass users .ok (users.map fun r => if r.id = row.id then account ac name pass r.id else r)
  | new : (∀ r ∈ users, r.name ≠ some name) → firstRemoved users = none →
    Added ac name pass users .ok (users ++ [account ac name pass (some (uidAt users.length))])

/-- What `acc_user_rm` does with it. -/
inductive Removes (ac : Access13) (key : Key) (users : List UserRow) : List UserRow → Prop
  | same : Removes ac key users users
  | marked (row : UserRow) : (users.find? fun r => key.user.holds ac.fold r) = some row →
    Removes ac key users (users.map fun r => if r.id = row.id then { r with stat := some accUsrSttRemoved } else r)

theorem name_ne_of_find (h : (users.find? fun row => (Key.name name).user.holds ac.fold row) = none) :
    ∀ r ∈ users, r.name ≠ some name := by
  intro r hr hname
  have hnames : (Key.name name).Names r := hname
  have hholds := Key.holds_of_names ac.fold hnames
  exact absurd hholds (by simpa using find?_eq_none.1 h r hr)

theorem dbUpdate_uid {fold : Char → Char} {row : UserRow} (h : Numbered users) (hrow : row ∈ users)
    (set : UserRow → UserRow) : dbUpdate fold (.eq UserRow.id 32 (columnUint row.id).toNat) set users =
      (.ok, users.map fun r => if r.id = row.id then set r else r) := by
  obtain ⟨i, -, hid⟩ := h.exists_id hrow
  obtain ⟨hlo, hhi⟩ := uidAt_range i
  have hholds : ∀ r : UserRow, (DbLogic.eq UserRow.id 32 (columnUint row.id).toNat).holds fold r =
      decide (r.id = row.id) := by
    intro r
    rw [hid, DbLogic.holds, toNat_columnUint hlo hhi, Int.bmod_eq_of_le (by omega) (by omega)]
  rw [dbUpdate_of_mem hrow (by rw [hholds]; simp)]
  simp only [hholds, decide_eq_true_eq]

theorem accUserAdd_spec (ac : Access13) (h : Numbered db.users) (name : List Char) (pass : CStr) :
    ∃ ret users', accUserAdd ac db name pass = some (ret, { db with users := users' }) ∧
      Added ac name pass db.users ret users' := by
  by_cases hgroups : name = "allgroups".toList
  · refine ⟨.err .notvalid, db.users, ?_, .refused _ (.inl hgroups)⟩
    subst hgroups
    rfl
  · have hassert : accAssertGroup name = true := decide_eq_true hgroups
    simp only [accUserAdd, hassert, Bool.true_eq_false, and_false, if_false, accUserChk_eq, decide_eq_false hgroups]
    cases hfind : db.users.find? fun row => (Key.name name).user.holds ac.fold row with
    | some row =>
      have hrow : row ∈ db.users := mem_of_find?_eq_some hfind
      have hholds := find?_some hfind
      obtain ⟨bytes, hpass⟩ := isSome_iff_exists.1 (h.pass row hrow)
      exact ⟨.err .exists_, db.users, by simp only [hpass], .refused _ (.inr ⟨row, hrow, hholds⟩)⟩
    | none =>
      have hname := name_ne_of_find hfind
      cases hremoved : firstRemoved db.users with
      | some row =>
        have hrow : row ∈ db.users := mem_of_find?_eq_some hremoved
        simp only [accGetFreeUid_of_removed hremoved, dbUpdate_uid h hrow]
        exact ⟨_, _, rfl, .taken row hname hremoved⟩
      | none =>
        obtain ⟨uid, huid, hlow⟩ := accGetFreeUid_of_none ac h hremoved
        simp only [huid, hlow]
        exact ⟨_, _, rfl, .new hname hremoved⟩

theorem accUserRm_spec (ac : Access13) (h : Numbered db.users) (key : Key) :
    ∃ ret users', accUserRm ac db key = some (ret, { db with users := users' }) ∧ Removes ac key db.users users' := by
  unfold accUserRm
  split_ifs with hres
  · exact ⟨_, _, rfl, .same⟩
  · rw [accUserChk_eq]
    cases hfind : db.users.find? fun row => key.user.holds ac.fold row with
    | none => exact ⟨_, _, rfl, .same⟩
    | some row =>
      have hrow : row ∈ db.users := mem_of_find?_eq_some hfind
      obtain ⟨bytes, hpass⟩ := isSome_iff_exists.1 (h.pass row hrow)
      have hentries : accRmUidEntries db (columnUint row.id) = some (.ok, db) := rfl
      simp only [hpass, hentries, dbUpdate_uid h hrow]
      split_ifs
      · exact ⟨_, _, rfl, .same⟩
      · exact ⟨_, _, rfl, .marked row hfind⟩

theorem Numbered.map (h : Numbered users) {f : UserRow → UserRow} (hid : ∀ r, (f r).id = r.id)
    (hpass : ∀ r, r.pass.isSome = true → (f r).pass.isSome = true) : Numbered (users.map f) := by
  constructor
  · rw [List.map_map, length_map, ← h.ids]
    exact map_congr_left fun r _ => hid r
  · rw [List.forall_mem_map]
    exact fun r hr => hpass r (h.pass r hr)

theorem Added.numbered (hadd : Added ac name pass users ret users') (h : Numbered users) : Numbered users' := by
  cases hadd with
  | refused e hname => exact h
  | taken row hname hremoved =>
    apply h.map
    · intro r
      split_ifs <;> rfl
    · intro r hr
      split_ifs
      · rfl
      · exact hr
  | new hname hremoved =>
    constructor
    · rw [map_append, h.ids, length_append, length_singleton, range_succ, map_append]
      rfl
    · intro r hr
      rcases mem_append.1 hr with hr | hr
      · exact h.pass r hr
      · rw [mem_singleton.1 hr]
        rfl

theorem Removes.numbered (hrm : Removes ac key users users') (h : Numbered users) : Numbered users' := by
  cases hrm with
  | same => exact h
  | marked row hfind =>
    apply h.map
    · intro r
      split_ifs <;> rfl
    · intro r hr
      split_ifs <;> exact hr

end Calls

section Runs
variable {ac : Access13} {db : AccDb} {users : List UserRow}

inductive UserCall
  | add (name : List Char) (pass : CStr)
  | rm (key : Key)

def UserCall.run (ac : Access13) (db : AccDb) : UserCall → Option (Ret × AccDb)
  | .add name pass => accUserAdd ac db name pass
  | .rm key => accUserRm ac db key

def runUserCalls (ac : Access13) : List UserCall → AccDb → Option AccDb
  | [], db => some db
  | call :: calls, db =>
    match call.run ac db with
    | none => none
    | some (_, db) => runUserCalls ac calls db

theorem numbered_runUserCalls (ac : Access13) (h : Numbered db.users) (calls : List UserCall) :
    ∃ db', runUserCalls ac calls db = some db' ∧ Numbered db'.users := by
  induction calls generalizing db with
  | nil => exact ⟨db, rfl, h⟩
  | cons call calls ih =>
    cases call with
    | add name pass =>
      obtain ⟨ret, users', hrun, hadd⟩ := accUserAdd_spec ac h name pass
      rw [runUserCalls, UserCall.run, hrun]
      exact ih (hadd.numbered h)
    | rm key =>
      obtain ⟨ret, users', hrun, hrm⟩ := accUserRm_spec ac h key
      rw [runUserCalls, UserCall.run, hrun]
      exact ih (hrm.numbered h)

/-- The ids are different from each other and from `UID13_NONE` and `UID13_ANY`. -/
def DistinctIds (users : List UserRow) : Prop :=
  (users.map fun row => columnUint row.id).Nodup ∧
    ∀ row ∈ users, columnUint row.id ≠ 0#32 ∧ columnUint row.id ≠ 0xffffffff#32

theorem columnUint_uidAt_toNat (i : ℕ) : ((columnUint (some (uidAt i))).toNat : ℤ) = uidAt i :=
  toNat_columnUint (uidAt_range i).1 (uidAt_range i).2

theorem Numbered.distinct_iff_length (h : Numbered users) : DistinctIds users ↔ users.length ≤ 255 := by
  have hids : (users.map fun row => columnUint row.id) =
      (List.range users.length).map fun i => columnUint (some (uidAt i)) := by
    have hcol := congrArg (List.map columnUint) h.ids
    rwa [List.map_map, List.map_map] at hcol
  constructor
  · intro hdist
    by_contra hlen
    -- the 256th account has the id 0
    have hmem : columnUint (some (uidAt 255)) ∈ users.map fun row => columnUint row.id := by
      rw [hids]
      exact mem_map_of_mem (mem_range.2 (by omega))
    obtain ⟨row, hrow, hid⟩ := mem_map.1 hmem
    exact (hdist.2 row hrow).1 hid
  · intro hlen
    constructor
    · rw [hids]
      refine List.Nodup.map_on ?_ nodup_range
      intro i hi j hj hij
      have heq : uidAt i = uidAt j := by
        rw [← columnUint_uidAt_toNat, ← columnUint_uidAt_toNat j, hij]
      rw [mem_range] at hi hj
      unfold uidAt at heq
      split_ifs at heq <;> omega
    · intro row hrow
      obtain ⟨i, hi, hid⟩ := h.exists_id hrow
      have hnat := columnUint_uidAt_toNat i
      rw [hid]
      constructor
      · intro hzero
        rw [hzero, uidAt, show (0#32).toNat = 0 from rfl] at hnat
        omega
      · intro hany
        rw [hany, uidAt, show (0xffffffff#32).toNat = 4294967295 from rfl] at hnat
        omega

theorem runUserCalls_append (calls calls' : List UserCall) (db : AccDb) : runUserCalls ac (calls ++ calls') db =
      (runUserCalls ac calls db).bind (runUserCalls ac calls') := by
  induction calls generalizing db with
  | nil => rfl
  | cons call calls ih =>
    rw [cons_append, runUserCalls, runUserCalls]
    cases call.run ac db with
    | none => rfl
    | some r => exact ih r.2

end Runs

/-! One account after the other, with names that differ in their length. -/

def longName (i : ℕ) : List Char := List.replicate (i + 1) 'a'

def longCalls (k : ℕ) : List UserCall := (List.range k).map fun i => .add (longName i) secret

theorem length_eq_of_matches {fold : Char → Char} {n : ℕ} {text : List Char}
    (h : Prj.Base.Glob.Matches (likePattern fold (List.replicate n 'a')) text) : text.length = n := by
  induction n generalizing text with
  | zero =>
    have hnil : text = [] := h
    rw [hnil, length_nil]
  | succ n ih =>
    obtain ⟨t, rfl, ht⟩ := h
    rw [length_cons, ih ht]

theorem longName_ne (i : ℕ) : longName i ≠ "allgroups".toList := by
  intro h
  have hmem : 'l' ∈ longName i := by
    rw [h]
    decide
  exact absurd (eq_of_mem_replicate hmem) (by decide)

theorem run_longCalls (k : ℕ) : runUserCalls padAccess (longCalls k) ⟨[], [], [], []⟩ =
      some ⟨(List.range k).map fun i => account padAccess (longName i) secret (some (uidAt i)), [], [], []⟩ := by
  induction k with
  | zero => rfl
  | succ k ih =>
    have hempty : Numbered (AccDb.mk [] [] [] []).users := numbered_nil
    obtain ⟨db, hrun, hdb⟩ := numbered_runUserCalls padAccess hempty (longCalls k)
    rw [longCalls, range_succ, map_append, map_append, runUserCalls_append, ← longCalls, hrun]
    obtain rfl := some.inj (hrun.symm.trans ih)
    obtain ⟨ret, users', hadd, hadded⟩ := accUserAdd_spec padAccess hdb (longName k) secret
    rw [bind_some, map_singleton, runUserCalls, UserCall.run, hadd]
    cases hadded with
    | refused e hname =>
      rcases hname with hname | ⟨r, hr, hholds⟩
      · exact absurd hname (longName_ne k)
      · -- the names of the accounts are all shorter
        obtain ⟨i, hi, rfl⟩ := mem_map.1 hr
        have hlen := length_eq_of_matches (of_decide_eq_true hholds)
        rw [length_map, longName, length_replicate] at hlen
        rw [mem_range] at hi
        omega
    | taken row hname hremoved =>
      obtain ⟨i, hi, rfl⟩ := mem_map.1 (mem_of_find?_eq_some hremoved)
      exact absurd (stat_of_firstRemoved hremoved) (account_not_removed _ _ _ _)
    | new hname hremoved =>
      rw [length_map, length_range]
      rfl

end Prj.Lib13
