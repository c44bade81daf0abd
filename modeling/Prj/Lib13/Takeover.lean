import Prj.Lib13.Account

/-! The rows of other tables under the id of a new account, over runs of `acc_user_add`,
`acc_user_rm`, `acc_user_join_group` and `acc_perm_user_add`. -/
namespace Prj.Lib13
open List Option

inductive AccCall
  | add (name : List Char) (pass : CStr)
  | rm (key : Key)
  | join (user group : Key)
  | permAdd (objid : BitVec 64) (user : Key) (perm : BitVec 8)

def AccCall.run (ac : Access13) (db : AccDb) : AccCall → Option (Ret × AccDb)
  | .add name pass => accUserAdd ac db name pass
  | .rm key => accUserRm ac db key
  | .join user group => accUserJoinGroup ac db user group
  | .permAdd objid user perm => accPermUserAdd ac db objid user perm

/-- No membership and no entry of the access list is under the id of the account. -/
def NoRows (db : AccDb) (name : List Char) : Prop :=
  ∀ row ∈ db.users, row.name = some name → (∀ m ∈ db.memb, m.uid ≠ row.id) ∧ ∀ entry ∈ db.acl, entry.uid ≠ row.id

def AccCall.Fresh (ret : Ret) (db : AccDb) : AccCall → Prop
  | .add name _ => ret = .ok → NoRows db name
  | _ => True

/-- No call of the run is undefined, and every account that it adds starts without rows. -/
def FreshRun (ac : Access13) : List AccCall → AccDb → Prop
  | [], _ => True
  | call :: calls, db =>
    ∃ ret db', call.run ac db = some (ret, db') ∧ call.Fresh ret db' ∧ FreshRun ac calls db'

/-- The account that `acc_user_chk` finds. -/
def found (ac : Access13) (db : AccDb) (key : Key) : Option UserRow :=
  db.users.find? fun row => key.user.holds ac.fold row

/-- A removed account has no memberships, a removed account does not join, the ids are not used up,
and `acc_perm_user_add` does not get as far as the access list. -/
def AccCall.Careful (ac : Access13) (db : AccDb) : AccCall → Prop
  | .add _ _ => db.users.length ≤ 255 ∨ firstRemoved db.users ≠ none
  | .rm key => ∀ row, found ac db key = some row → ∀ m ∈ db.memb, m.uid ≠ row.id
  | .join user _ => ∀ row, found ac db user = some row → row.stat ≠ some accUsrSttRemoved
  | .permAdd _ user _ => found ac db user = none

def CarefulRun (ac : Access13) : List AccCall → AccDb → Prop
  | [], _ => True
  | call :: calls, db =>
    call.Careful ac db ∧ ∀ ret db', call.run ac db = some (ret, db') → CarefulRun ac calls db'

structure Purged (db : AccDb) : Prop where
  numbered : Numbered db.users
  le : db.users.length ≤ 256
  acl : db.acl = []
  user : ∀ m ∈ db.memb, ∃ row ∈ db.users, row.id = m.uid
  removed : ∀ row ∈ db.users, row.stat = some accUsrSttRemoved → ∀ m ∈ db.memb, m.uid ≠ row.id

section Steps
variable {ac : Access13} {db db' : AccDb} {users users' : List UserRow} {name : List Char} {pass : CStr}
  {key user group : Key} {ret : Ret} {row r : UserRow}

theorem uidAt_inj {i j : ℕ} (hi : i < 256) (hj : j < 256) (h : uidAt i = uidAt j) : i = j := by
  unfold uidAt at h
  split_ifs at h <;> omega

theorem Numbered.eq_of_id (h : Numbered users) (hlen : users.length ≤ 256) (hr : r ∈ users)
    (hrow : row ∈ users) (hid : r.id = row.id) : r = row := by
  have hnodup : (users.map UserRow.id).Nodup := by
    rw [h.ids]
    refine List.Nodup.map_on ?_ nodup_range
    intro i hi j hj hij
    rw [mem_range] at hi hj
    exact uidAt_inj (by omega) (by omega) (some.inj hij)
  exact inj_on_of_nodup_map hnodup hr hrow hid

theorem Added.noRows (hadd : Added ac name pass db.users .ok users') (h : Purged db)
    (hcareful : (AccCall.add name pass).Careful ac db) : NoRows { db with users := users' } name := by
  intro row hrow hname
  refine ⟨?_, by simp [h.acl]⟩
  intro m hm hid
  cases hadd with
  | taken removed hnew hremoved =>
    obtain ⟨r, hr, rfl⟩ := mem_map.1 hrow
    split_ifs at hname hid with hrid
    · -- the id of the account that was removed
      refine h.removed removed (mem_of_find?_eq_some hremoved) (stat_of_firstRemoved hremoved) m hm ?_
      rw [← hrid]
      exact hid
    · exact hnew r hr hname
  | new hnew hremoved =>
    rcases mem_append.1 hrow with hrow | hrow
    · exact hnew row hrow hname
    · obtain rfl := mem_singleton.1 hrow
      obtain ⟨r, hr, hrid⟩ := h.user m hm
      obtain ⟨i, hi, hri⟩ := h.numbered.exists_id hr
      have hlen : db.users.length ≤ 255 := hcareful.resolve_right fun hne => hne hremoved
      have huid : some (uidAt i) = some (uidAt db.users.length) := by
        rw [← hri, hrid]
        exact hid
      have := uidAt_inj (by omega) (by omega) (some.inj huid)
      omega

theorem Purged.map {f : UserRow → UserRow} (h : Purged db) (hnumbered : Numbered (db.users.map f))
    (hid : ∀ r, (f r).id = r.id)
    (hremoved : ∀ r ∈ db.users, (f r).stat = some accUsrSttRemoved → ∀ m ∈ db.memb, m.uid ≠ (f r).id) :
    Purged { db with users := db.users.map f } := by
  refine ⟨hnumbered, by simpa using h.le, h.acl, fun m hm => ?_, forall_mem_map.2 hremoved⟩
  obtain ⟨r, hr, hrid⟩ := h.user m hm
  exact ⟨f r, mem_map_of_mem hr, (hid r).trans hrid⟩

theorem Added.purged (hadd : Added ac name pass db.users ret users') (h : Purged db)
    (hcareful : (AccCall.add name pass).Careful ac db) : Purged { db with users := users' } := by
  have hnumbered := hadd.numbered h.numbered
  cases hadd with
  | refused e hname => exact h
  | taken removed hnew hremoved =>
    refine h.map hnumbered (fun r => by split_ifs <;> rfl) fun r hr hstat => ?_
    split_ifs at hstat ⊢
    · exact absurd hstat (account_not_removed _ _ _ _)
    · exact h.removed r hr hstat
  | new hnew hremoved =>
    have hlen : db.users.length ≤ 255 := hcareful.resolve_right fun hne => hne hremoved
    refine ⟨hnumbered, by rw [length_append]; exact Nat.succ_le_succ hlen, h.acl, ?_, ?_⟩
    · intro m hm
      obtain ⟨r, hr, hid⟩ := h.user m hm
      exact ⟨r, mem_append_left _ hr, hid⟩
    · intro row hrow hstat
      rcases mem_append.1 hrow with hrow | hrow
      · exact h.removed row hrow hstat
      · obtain rfl := mem_singleton.1 hrow
        exact absurd hstat (account_not_removed _ _ _ _)

theorem Removes.purged (hrm : Removes ac key db.users users') (h : Purged db)
    (hcareful : (AccCall.rm key).Careful ac db) : Purged { db with users := users' } := by
  have hnumbered := hrm.numbered h.numbered
  cases hrm with
  | same => exact h
  | marked row hfind =>
    refine h.map hnumbered (fun r => by split_ifs <;> rfl) fun r hr hstat => ?_
    split_ifs at hstat ⊢ with hid
    · simp only [hid]
      exact hcareful row hfind
    · exact h.removed r hr hstat

theorem accGroupChk_some (ac : Access13) (groups : List GroupRow) (key : Key) :
    ∃ r, accGroupChk ac groups key = some r := by
  have hfinished : key.group.unfinished = false := by cases key <;> rfl
  rw [accGroupChk, dbCollect_one hfinished]
  cases groups.filter fun row => key.group.holds ac.fold row with
  | nil | cons => exact ⟨_, rfl⟩

section
variable (ac : Access13) (h : Numbered db.users) (user group : Key)
include h

theorem chkBoth_cases : (∃ e, chkBoth ac db user group = some (.error e)) ∨ ∃ row gid, found ac db user = some row ∧
        chkBoth ac db user group = some (.ok (columnUint row.id, gid)) := by
  unfold found
  rw [chkBoth, accUserChk_eq]
  cases hfind : db.users.find? fun row => user.user.holds ac.fold row with
  | none => exact .inl ⟨_, rfl⟩
  | some row =>
    obtain ⟨bytes, hpass⟩ := isSome_iff_exists.1 (h.pass row (mem_of_find?_eq_some hfind))
    obtain ⟨r, hgroup⟩ := accGroupChk_some ac db.groups group
    simp only [hpass, hgroup]
    cases r with
    | error e => exact .inl ⟨e, rfl⟩
    | ok gid => exact .inr ⟨row, gid, rfl, rfl⟩

/-- `acc_user_join_group` fails, or it adds one membership of the account. -/
theorem accUserJoinGroup_spec : ∃ ret memb', accUserJoinGroup ac db user group = some (ret, { db with memb := memb' }) ∧
      (memb' = db.memb ∨ ∃ row m, found ac db user = some row ∧ m.uid = row.id ∧ memb' = db.memb ++ [m]) := by
  rcases chkBoth_cases ac h user group with ⟨e, hboth⟩ | ⟨row, gid, hfind, hboth⟩
  · refine ⟨.err e, db.memb, ?_, .inl rfl⟩
    have hchk : accUserGroupChk ac db user group = some (.err e) := by rw [accUserGroupChk, hboth]
    rw [accUserJoinGroup, hchk]
    simp only [hboth]
  · have hchk : accUserGroupChk ac db user group = some (.err .syntaxError) := by
      rw [accUserGroupChk, hboth]
      rfl
    obtain ⟨i, -, hid⟩ := h.exists_id (mem_of_find?_eq_some hfind)
    have huid : some (lowByte (columnUint row.id).toNat) = row.id := by
      rw [hid, lowByte, some.injEq]
      have hnat := columnUint_uidAt_toNat i
      have hrange := uidAt_range i
      omega
    rw [accUserJoinGroup, hchk]
    simp only [hboth]
    exact ⟨_, _, rfl, .inr ⟨row, _, hfind, huid, rfl⟩⟩

end

theorem purged_join (h : Purged db) (hcareful : (AccCall.join user group).Careful ac db) :
    ∃ ret db', accUserJoinGroup ac db user group = some (ret, db') ∧ Purged db' := by
  obtain ⟨ret, memb', hrun, hmemb⟩ := accUserJoinGroup_spec ac h.numbered user group
  refine ⟨ret, _, hrun, ?_⟩
  rcases hmemb with rfl | ⟨row, m, hfind, hid, rfl⟩
  · exact h
  · have hrow : row ∈ db.users := mem_of_find?_eq_some hfind
    refine ⟨h.numbered, h.le, h.acl, ?_, ?_⟩
    · intro m' hm'
      rcases mem_append.1 hm' with hm' | hm'
      · exact h.user m' hm'
      · obtain rfl := mem_singleton.1 hm'
        exact ⟨row, hrow, hid.symm⟩
    · intro r hr hstat m' hm'
      rcases mem_append.1 hm' with hm' | hm'
      · exact h.removed r hr hstat m' hm'
      · obtain rfl := mem_singleton.1 hm'
        intro heq
        obtain rfl := h.numbered.eq_of_id h.le hr hrow (heq.symm.trans hid)
        exact hcareful _ hfind hstat

theorem AccCall.Careful.step {call : AccCall} (hcareful : call.Careful ac db) (h : Purged db) :
    ∃ ret db', call.run ac db = some (ret, db') ∧ call.Fresh ret db' ∧ Purged db' := by
  cases call with
  | add name pass =>
    obtain ⟨ret, users', hrun, hadd⟩ := accUserAdd_spec ac h.numbered name pass
    refine ⟨ret, _, hrun, ?_, hadd.purged h hcareful⟩
    rintro rfl
    exact hadd.noRows h hcareful
  | rm key =>
    obtain ⟨ret, users', hrun, hrm⟩ := accUserRm_spec ac h.numbered key
    exact ⟨ret, _, hrun, trivial, hrm.purged h hcareful⟩
  | join user group =>
    obtain ⟨ret, db', hrun, hdb'⟩ := purged_join h hcareful
    exact ⟨ret, db', hrun, trivial, hdb'⟩
  | permAdd objid user perm =>
    refine ⟨.err .notfound, db, ?_, trivial, h⟩
    unfold AccCall.Careful found at hcareful
    rw [AccCall.run, accPermUserAdd, accUserChk_eq, hcareful]

theorem CarefulRun.freshRun {calls : List AccCall} (hcareful : CarefulRun ac calls db)
    (h : Purged db) : FreshRun ac calls db := by
  induction calls generalizing db with
  | nil => trivial
  | cons call calls ih =>
    obtain ⟨ret, db', hrun, hfresh, hdb'⟩ := hcareful.1.step h
    exact ⟨ret, db', hrun, hfresh, ih (hcareful.2 ret db' hrun) hdb'⟩

end Steps

def staff : List GroupRow := [⟨some 1, some "staff".toList, some 0⟩]

def ann : UserRow := account padAccess "ann".toList secret (some 1)

def annRemoved : UserRow := { ann with stat := some accUsrSttRemoved }

def annInStaff : MembRow where
  regId := some (lowByte padAccess.regid.toNat)
  nrow := none
  gid := some 1
  uid := some 1
  stat := some (lowByte accMemsSttActive)

theorem add_ann : accUserAdd padAccess ⟨[], staff, [], []⟩ "ann".toList secret =
    some (.ok, ⟨[ann], staff, [], []⟩) := rfl

theorem rm_ann (memb : List MembRow) : accUserRm padAccess ⟨[ann], staff, memb, []⟩ (.id 1) =
    some (.ok, ⟨[annRemoved], staff, memb, []⟩) := rfl

end Prj.Lib13
