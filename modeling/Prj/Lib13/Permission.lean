import Prj.Lib13.Login

/-! Access decisions, permissions of users and memberships in groups. -/
namespace Prj.Lib13
open List Option

section Found
variable {ac : Access13} {users : List UserRow} {key : Key}

def Key.found (ac : Access13) (users : List UserRow) (key : Key) : Bool :=
  match users.find? fun row => key.user.holds ac.fold row with
  | none => false
  | some row => row.pass.isSome

theorem accUserChk_found_iff : (∃ usr, accUserChk ac users key = some (.ok usr)) ↔ key.found ac users = true := by
  unfold Key.found
  rw [accUserChk_eq]
  cases hfind : users.find? fun row => key.user.holds ac.fold row with
  | none => simp
  | some row => cases hpass : row.pass <;> simp [hpass]

theorem accUserChk_cases (ac : Access13) (users : List UserRow) (key : Key) :
    accUserChk ac users key = none ∨ accUserChk ac users key = some (.error .notfound) ∨
      ∃ usr, accUserChk ac users key = some (.ok usr) := by
  rw [accUserChk_eq]
  cases users.find? fun row => key.user.holds ac.fold row with
  | none => exact .inr (.inl rfl)
  | some row =>
    obtain ⟨id, name, pass, lastlogin, lastlogout, stat⟩ := row
    cases pass with
    | none => exact .inl rfl
    | some bytes => exact .inr (.inr ⟨_, rfl⟩)

end Found

section Acl
variable {ac : Access13} {db : AccDb} {objid : BitVec 64} {user : Key} {uids gids : List (BitVec 32)}

theorem length_oneOf {R : Type} (ls : List (DbLogic R)) :
    (oneOf ls).length = if ls = [] then 0 else 2 * ls.length + 2 := by
  cases ls with
  | nil => rfl
  | cons l ls =>
    have hflat : (ls.flatMap fun l => [DbLogic.comb .or_, l]).length = 2 * ls.length := by
      induction ls with
      | nil => rfl
      | cons l ls ih =>
        simp
        omega
    simp only [oneOf, length_cons, length_append, hflat, length_nil, reduceCtorEq, if_false]
    omega

/-- The array of `_acc_load_acl` is too short as soon as there is a user or a group. -/
theorem length_aclLogic_gt (objid : BitVec 64) (h : ¬(uids = [] ∧ gids = [])) :
    uids.length + gids.length + 1 < (aclLogic objid uids gids).length := by
  simp only [aclLogic, length_cons, length_append, length_oneOf, map_eq_nil_iff, reverse_eq_nil_iff, length_map,
    length_reverse]
  split_ifs with hu hg hg
  · exact absurd ⟨hu, hg⟩ h
  · simp [hu]
    omega
  · simp [hg]
    omega
  · omega

/-- The rows of the object with one of the users or one of the groups. -/
def wantedRows (acl : List AclRow) (objid : BitVec 64) (uids gids : List (BitVec 32)) : List AclRow :=
  acl.filter fun row => row.objid = some objid.toInt ∧
    (uids.any (row.uid = some ·.toInt) ∨ gids.any (row.gid = some ·.toInt))

def AclRow.entry (row : AclRow) : AclEntry := ⟨(columnUint row.perm).setWidth 8, columnUint row.uid, columnUint row.gid⟩

/-- The entries fit into the array, `db_collect` is told of all of them (it is told of one, as both counts are 0), and
the rows that are loaded are the ones of the object with these ids. -/
def LoadsAcl (ac : Access13) (acl : List AclRow) (objid : BitVec 64) (uids gids : List (BitVec 32)) : Prop :=
  (aclLogic objid uids gids).length ≤ uids.length + gids.length + 1 ∧ (aclLogic objid uids gids).length = 1 ∧
    ∃ ret acllist, accLoadAcl ac acl objid uids gids = some (ret, (wantedRows acl objid uids gids).length, acllist) ∧
      acllist.getD [] = (wantedRows acl objid uids gids).map AclRow.entry

/-- Without ids all rows of the object are counted. -/
theorem loadsAcl_iff (ac : Access13) (acl : List AclRow) (objid : BitVec 64) (uids gids : List (BitVec 32)) :
    LoadsAcl ac acl objid uids gids ↔ (uids = [] ∧ gids = []) ∧ ∀ row ∈ acl, row.objid ≠ some objid.toInt := by
  have hobj : (objid.toNat : ℤ).bmod (2 ^ 64) = objid.toInt := (BitVec.toInt_eq_toNat_bmod objid).symm
  have hcollect : accLoadAcl ac acl objid [] [] =
      some (.err .notfound, (acl.filter fun row => row.objid = some objid.toInt).length, none) := by
    rw [← hobj]
    rfl
  have hwanted : wantedRows acl objid [] [] = [] := by simp [wantedRows]
  constructor
  · rintro ⟨hfit, -, ret, acllist, hload, -⟩
    have hnil : uids = [] ∧ gids = [] := not_not.1 fun h => Nat.not_le.2 (length_aclLogic_gt objid h) hfit
    obtain ⟨rfl, rfl⟩ := hnil
    rw [hcollect, hwanted, some_inj, Prod.mk.injEq, Prod.mk.injEq, length_nil, length_eq_zero_iff,
      filter_eq_nil_iff] at hload
    exact ⟨⟨rfl, rfl⟩, fun row hrow => by simpa using hload.2.1 row hrow⟩
  · rintro ⟨⟨rfl, rfl⟩, hrows⟩
    have hnone : (acl.filter fun row => row.objid = some objid.toInt) = [] :=
      filter_eq_nil_iff.2 fun row hrow => by simpa using hrows row hrow
    exact ⟨Nat.le_refl 1, rfl, _, none, by rw [hcollect, hnone, hwanted], by rw [hwanted]; rfl⟩

/-- One user: the array has two elements, and five are written. -/
theorem not_loadsAcl_user : ¬LoadsAcl padAccess [] 5 [7] [] := by
  rintro ⟨hfit, -⟩
  exact absurd hfit (by decide)

/-- The rules in the comment of `acc_user_access`, for the user with this id and these groups. -/
def Allowed (acl : List AclRow) (objid : BitVec 64) (uid : ℤ) (groups : List ℤ) (perm : BitVec 8) : Prop :=
  (∃ row ∈ acl, row.objid = some objid.toInt ∧ row.uid = some uid ∧ (columnUint row.perm).setWidth 8 &&& perm ≠ 0) ∨
    (∀ row ∈ acl, row.objid = some objid.toInt → row.uid ≠ some uid) ∧
      ∃ row ∈ acl, row.objid = some objid.toInt ∧ (∃ gid ∈ groups, row.gid = some gid) ∧
        (columnUint row.perm).setWidth 8 &&& perm ≠ 0

def groupsOf (memb : List MembRow) (uid : ℤ) : List ℤ :=
  (memb.filter fun row => row.uid = some uid).filterMap MembRow.gid

/-- `acc_user_access` decides by the rules about the user with this id. -/
def DecidesAccess (ac : Access13) (db : AccDb) (objid : BitVec 64) (user : Key) (uid : ℤ) (perm : BitVec 8) : Prop :=
  (Allowed db.acl objid uid (groupsOf db.memb uid) perm → accUserAccess ac db objid user perm = some .ok) ∧
    (¬Allowed db.acl objid uid (groupsOf db.memb uid) perm → accUserAccess ac db objid user perm = some (.err .perm))

/-- `acc_user_access` has no defined result for a user that it finds. -/
theorem accUserAccess_cases (ac : Access13) (db : AccDb) (objid : BitVec 64) (user : Key)
    (perm : BitVec 8) : accUserAccess ac db objid user perm = none ∨
      accUserAccess ac db objid user perm = some (.err .notfound) := by
  rw [accUserAccess]
  rcases accUserChk_cases ac db.users user with hchk | hchk | ⟨usr, hchk⟩
  · exact .inl (by rw [hchk])
  · exact .inr (by rw [hchk])
  · refine .inl ?_
    rw [hchk]
    cases hgroups : accUserGroupList ac db (.id usr.uid) with
    | none => simp only [hgroups]
    | some r =>
      cases r with
      | error e => simp only [hgroups]
      | ok gids =>
        have hload : accLoadAcl ac db.acl objid [usr.uid] gids = none :=
          if_pos (length_aclLogic_gt objid (by simp))
        simp only [hgroups, hload]

/-- For no table, user, object and permission the decision is the one of the rules. -/
theorem not_decidesAccess (ac : Access13) (db : AccDb) (objid : BitVec 64) (user : Key) (uid : ℤ)
    (perm : BitVec 8) : ¬DecidesAccess ac db objid user uid perm := by
  rintro ⟨hok, hperm⟩
  by_cases hallowed : Allowed db.acl objid uid (groupsOf db.memb uid) perm
  · have hres := hok hallowed
    rcases accUserAccess_cases ac db objid user perm with h | h <;> simp [h] at hres
  · have hres := hperm hallowed
    rcases accUserAccess_cases ac db objid user perm with h | h <;> simp [h] at hres

/-- The owner of the only row for the object. -/
theorem not_decidesAccess_bob :
    ¬DecidesAccess padAccess ⟨[bob], [], [], [⟨some 1, some 1, none, some 7, some 3, some 1⟩]⟩ 3
      (.name "bob".toList) 7 1 := by
  rintro ⟨hok, -⟩
  have hres := hok (.inl ⟨_, mem_singleton_self _, rfl, rfl, by decide⟩)
  rcases accUserAccess_cases padAccess _ 3 (.name "bob".toList) 1 with h | h
  · cases hres
  · rw [h] at hres
    cases hres

end Acl

section Perm
variable {ac : Access13} {db : AccDb} {objid : BitVec 64} {user : Key} {perm : BitVec 8}

/-- After an addition the permission is the one that is found, after a removal there is none, and the
other entries stay. `uid` is the argument that goes with a name. -/
def PermRight (ac : Access13) (db : AccDb) (objid : BitVec 64) (user : Key) (uid : BitVec 32)
    (id : ℤ) (perm : BitVec 8) : Prop :=
  (∀ db', accPermUserAdd ac db objid user perm = some (.ok, db') →
    accPermUserChk ac db' objid user uid = some (.ok perm) ∧
      ∀ row, (row.objid ≠ some objid.toInt ∨ row.uid ≠ some id) → db'.acl.count row = db.acl.count row) ∧
  ∀ db', accPermUserRm ac db objid user = some (.ok, db') →
    accPermUserChk ac db' objid user uid = some (.error .notfound) ∧
      ∀ row, (row.objid ≠ some objid.toInt ∨ row.uid ≠ some id) → db'.acl.count row = db.acl.count row

/-- The removal succeeds and does nothing, and the check of the permission is refused. -/
theorem not_permRight_of_found (h : user.found ac db.users = true) (uid : BitVec 32) (id : ℤ) :
    ¬PermRight ac db objid user uid id perm := by
  rintro ⟨-, hrm⟩
  obtain ⟨usr, husr⟩ := accUserChk_found_iff.2 h
  have hok : accPermUserRm ac db objid user = some (.ok, db) := by
    rw [accPermUserRm, husr]
    rfl
  have hchk := (hrm db hok).1
  rw [accPermUserChk, husr] at hchk
  simp only [accPermChk, dbCollect_two _ _ (by decide : Comb.and_ ≠ .closep)] at hchk
  simp at hchk

/-- Permissions are only handled right for users that do not exist. -/
theorem permRight_iff (ac : Access13) (db : AccDb) (objid : BitVec 64) (user : Key) (uid : BitVec 32)
    (id : ℤ) (perm : BitVec 8) : PermRight ac db objid user uid id perm ↔ user.found ac db.users = false := by
  constructor
  · intro hright
    by_contra hfound
    exact not_permRight_of_found (by simpa using hfound) uid id hright
  · intro hno
    have hchk : ∀ usr, accUserChk ac db.users user ≠ some (.ok usr) := fun usr husr =>
      Bool.eq_false_iff.1 hno (accUserChk_found_iff.1 ⟨usr, husr⟩)
    constructor
    · intro db' hadd
      rw [accPermUserAdd] at hadd
      split at hadd
      · simp at hadd
      · simp at hadd
      · exact absurd ‹_› (hchk _)
    · intro db' hrm
      rw [accPermUserRm] at hrm
      split at hrm
      · simp at hrm
      · simp at hrm
      · exact absurd ‹_› (hchk _)

theorem not_permRight_bob : ¬PermRight padAccess ⟨[bob], [], [], []⟩ 3 (.name "bob".toList) 7 7 1 :=
  not_permRight_of_found (by decide) 7 7

end Perm

section Membership
variable {ac : Access13} {db db' : AccDb} {user group : Key} {p : BitVec 32 × BitVec 32}

/-- `acc_user_join_group` and `acc_user_leave_group` -/
inductive MembCall
  | join (user group : Key)
  | leave (user group : Key)

def MembCall.pair (ac : Access13) (db : AccDb) (call : MembCall) : Option (BitVec 32 × BitVec 32) :=
  match call with
  | .join user group | .leave user group =>
    match chkBoth ac db user group with
    | some (.ok p) => some p
    | _ => none

def MembCall.run (ac : Access13) (db : AccDb) : MembCall → Option (Ret × AccDb)
  | .join user group => accUserJoinGroup ac db user group
  | .leave user group => accUserLeaveGroup ac db user group

def runCalls (ac : Access13) : List MembCall → AccDb → Option (List (MembCall × Ret) × AccDb)
  | [], db => some ([], db)
  | call :: calls, db => do
    let (ret, db) ← call.run ac db
    let (log, db) ← runCalls ac calls db
    pure ((call, ret) :: log, db)

def member (ac : Access13) (db : AccDb) (p : BitVec 32 × BitVec 32) (log : List (MembCall × Ret)) : Bool :=
  log.foldl (fun before entry =>
    if entry.1.pair ac db = some p ∧ entry.2 = .ok then
      match entry.1 with
      | .join _ _ => true
      | .leave _ _ => false
    else before) false

/-- The code of a call on a pair that is a member or not. -/
def MembCall.Returns (isMember : Bool) : MembCall → Ret → Prop
  | .join _ _, ret => isMember = true → ret = .err .exists_
  | .leave _ _, ret => ret = if isMember then .ok else .err .notfound

def BehavesAsSet (ac : Access13) (db : AccDb) (calls : List MembCall) : Prop :=
  ∃ log db', runCalls ac calls db = some (log, db') ∧ (∀ before call ret after, log = before ++ (call, ret) :: after →
      ∀ p, call.pair ac db = some p → call.Returns (member ac db p before) ret) ∧
    ∀ user group p, (MembCall.join user group).pair ac db = some p →
      (accUserGroupChk ac db' user group = some .ok ↔ member ac db p log = true)

theorem accUserGroupChk_ne_ok (ac : Access13) (db : AccDb) (user group : Key) :
    accUserGroupChk ac db user group ≠ some .ok := by
  unfold accUserGroupChk
  cases chkBoth ac db user group with
  | none => simp
  | some r =>
    cases r with
    | error e => simp
    | ok p =>
      simp only [membLogic, dbCollect_two _ _ (by decide : Comb.and_ ≠ .closep)]
      simp

def MembCall.code : MembCall → Ret
  | .join _ _ => .ok
  | .leave _ _ => .err .syntaxError

variable {call : MembCall}

theorem chkBoth_of_pair (h : call.pair ac db = some p) : ∃ user group, chkBoth ac db user group = some (.ok p) ∧
      (call = .join user group ∨ call = .leave user group) := by
  cases call with
  | join user group | leave user group =>
    refine ⟨user, group, ?_, by simp⟩
    unfold MembCall.pair at h
    simp only at h
    split at h
    · simpa [← some.inj h]
    · simp at h

theorem run_eq (h : (call.pair ac db).isSome) :
    ∃ db', call.run ac db = some (call.code, db') ∧ db'.users = db.users ∧ db'.groups = db.groups := by
  obtain ⟨p, hpair⟩ := isSome_iff_exists.1 h
  obtain ⟨user, group, hboth, rfl | rfl⟩ := chkBoth_of_pair hpair
  · have hchk : accUserGroupChk ac db user group = some (.err .syntaxError) := by
      rw [accUserGroupChk, hboth]
      rfl
    obtain ⟨memb, hjoin⟩ : ∃ memb, accUserJoinGroup ac db user group = some (.ok, { db with memb }) := by
      rw [accUserJoinGroup, hchk]
      simp only [hboth]
      exact ⟨_, rfl⟩
    exact ⟨{ db with memb }, hjoin, rfl, rfl⟩
  · refine ⟨db, ?_, rfl, rfl⟩
    rw [MembCall.run, accUserLeaveGroup, hboth]
    rfl

variable {calls : List MembCall}

theorem runCalls_eq (h : ∀ call ∈ calls, (call.pair ac db).isSome) :
    ∃ db', runCalls ac calls db = some (calls.map fun call => (call, call.code), db') := by
  induction calls generalizing db with
  | nil => exact ⟨db, rfl⟩
  | cons call calls ih =>
    obtain ⟨db1, hrun, hu, hg⟩ := run_eq (h call (by simp))
    obtain ⟨db2, hcalls⟩ := @ih db1 fun c hc => by
      rw [show c.pair ac db1 = c.pair ac db by cases c <;> simp only [MembCall.pair, chkBoth, hu, hg]]
      exact h c (by simp [hc])
    refine ⟨db2, ?_⟩
    rw [runCalls, hrun]
    simp [hcalls]

theorem member_of_joins (hjoins : ∀ call ∈ calls, call.code = .ok) (hmem : call ∈ calls)
    (hpair : call.pair ac db = some p) : member ac db p (calls.map fun call => (call, call.code)) = true := by
  have hfold : ∀ b, (calls.map fun call => (call, call.code)).foldl (fun before entry =>
      if entry.1.pair ac db = some p ∧ entry.2 = .ok then
        match entry.1 with
        | .join _ _ => true
        | .leave _ _ => false
      else before) b = (b || calls.any fun call => call.pair ac db = some p) := by
    clear hmem
    induction calls with
    | nil => simp
    | cons c calls ih =>
      intro b
      have hc := hjoins c (by simp)
      rw [map_cons, foldl_cons, ih fun d hd => hjoins d (by simp [hd])]
      cases c with
      | join user group =>
        by_cases hp : (MembCall.join user group).pair ac db = some p <;> simp [hp, MembCall.code]
      | leave user group => simp [MembCall.code] at hc
  rw [member, hfold]
  exact any_eq_true.2 ⟨call, hmem, by simpa using hpair⟩

theorem not_behavesAsSet (h : ∀ call ∈ calls, (call.pair ac db).isSome)
    (hne : calls ≠ []) : ¬BehavesAsSet ac db calls := by
  rintro ⟨log, db', hrun, hreturns, hchk⟩
  obtain ⟨db1, hrun'⟩ := runCalls_eq h
  rw [hrun', some.injEq, Prod.mk.injEq] at hrun
  obtain ⟨rfl, rfl⟩ := hrun
  by_cases hleave : ∃ call ∈ calls, call.code ≠ .ok
  · -- the code of a `leave` is none of the two
    obtain ⟨call, hmem, hcode⟩ := hleave
    obtain ⟨before, after, rfl⟩ := append_of_mem hmem
    obtain ⟨p, hpair⟩ := isSome_iff_exists.1 (h call hmem)
    have hret := hreturns _ call call.code _ (by rw [map_append, map_cons]) p hpair
    cases call with
    | join user group => exact hcode rfl
    | leave user group =>
      rw [MembCall.Returns, MembCall.code] at hret
      split at hret <;> exact absurd hret (by decide)
  · -- all calls have joined, and the check does not see it
    obtain ⟨call, calls, rfl⟩ := exists_cons_of_ne_nil hne
    obtain ⟨p, hpair⟩ := isSome_iff_exists.1 (h call (by simp))
    obtain ⟨user, group, hboth, -⟩ := chkBoth_of_pair hpair
    refine accUserGroupChk_ne_ok ac db1 user group ((hchk user group p ?_).2 ?_)
    · simp [MembCall.pair, hboth]
    · exact member_of_joins (by simpa using hleave) mem_cons_self hpair

/-- Memberships behave as a set only as long as no call is made. -/
theorem behavesAsSet_iff {calls : List MembCall} (h : ∀ call ∈ calls, (call.pair ac db).isSome) :
    BehavesAsSet ac db calls ↔ calls = [] := by
  constructor
  · intro hset
    by_contra hne
    exact not_behavesAsSet h hne hset
  · rintro rfl
    refine ⟨[], db, rfl, by simp, fun user group p _ => ?_⟩
    exact iff_of_false (accUserGroupChk_ne_ok ac db user group) (by simp [member])

def bobAndStaff : AccDb := ⟨[bob], [⟨some 1, some "staff".toList, some 0⟩], [], []⟩

/-- Without a call, and with a membership that begins and ends. -/
theorem behavesAsSet_iff_calls : BehavesAsSet padAccess bobAndStaff [] ∧
    ¬BehavesAsSet padAccess bobAndStaff [.join (.id 7) (.id 1), .leave (.id 7) (.id 1)] :=
  ⟨(behavesAsSet_iff (by simp)).2 rfl, fun h => absurd ((behavesAsSet_iff (by decide)).1 h) (by simp)⟩

theorem not_behavesAsSet_join : ¬BehavesAsSet padAccess bobAndStaff [.join (.id 7) (.id 1)] :=
  not_behavesAsSet (by decide) (by simp)

end Membership
end Prj.Lib13
