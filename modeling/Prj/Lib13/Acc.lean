import Prj.Lib13.Db
import Prj.Lib13.Pack

/-! Users, groups, memberships and access lists (`lib13/acc13.c`). -/
namespace Prj.Lib13

/-- What `struct access13` says about passwords: `hash` is taken to be injective on what it is given,
at most `ACC_MAX_PASSLEN` bytes. `fold` is the case folding of the database's `LIKE`. -/
structure Access13 where
  hash : List UInt8 → List UInt8
  hashlen : ℕ
  regid : BitVec 32
  fold : Char → Char
  length_hash : ∀ s, (hash s).length = hashlen
  hash_injective : ∀ s t, s.length ≤ 2048 → t.length ≤ 2048 → hash s = hash t → s = t

def accMaxPasslen : ℕ := 2048

/-- `ac->hash(pass, s13_strlen(pass, ACC_MAX_PASSLEN), passhash)` -/
def Access13.passhash (ac : Access13) (pass : CStr) : List UInt8 := ac.hash (pass.bytes.take accMaxPasslen)

structure UserRow where
  id : Option ℤ
  name : Option (List Char)
  pass : Option (List UInt8)
  lastlogin : Option ℤ
  lastlogout : Option ℤ
  stat : Option ℤ
deriving DecidableEq

structure GroupRow where
  id : Option ℤ
  name : Option (List Char)
  stat : Option ℤ
deriving DecidableEq

structure MembRow where
  regId : Option ℤ
  nrow : Option ℤ
  gid : Option ℤ
  uid : Option ℤ
  stat : Option ℤ
deriving DecidableEq

structure AclRow where
  regId : Option ℤ
  nrow : Option ℤ
  gid : Option ℤ
  uid : Option ℤ
  objid : Option ℤ
  perm : Option ℤ
deriving DecidableEq

/-- A user or a group is called by its name or, when `name` is NULL, by its id. -/
inductive Key
  | name (s : List Char)
  | id (n : BitVec 32)
deriving DecidableEq

def Key.logic {R : Type} (nameCol : R → Option (List Char)) (idCol : R → Option ℤ) : Key → DbLogic R
  | .name s => .like nameCol s
  | .id n => .eq idCol 32 n.toNat

def Key.user (key : Key) : DbLogic UserRow := key.logic UserRow.name UserRow.id

def Key.group (key : Key) : DbLogic GroupRow := key.logic GroupRow.name GroupRow.id

/-- `db_column_int` to an unsigned number of 32 bits -/
def columnUint (cell : Option ℤ) : BitVec 32 := BitVec.ofInt 32 (cell.getD 0)

/-- `db_column_int` -/
def columnInt (cell : Option ℤ) : ℤ := (cell.getD 0).bmod (2 ^ 32)

def accUsrSttIn : ℤ := 20
def accUsrSttOut : ℤ := 40
def accUsrSttRemoved : ℤ := 60
def accMemsSttActive : ℕ := 10

/-- `_acc_assert(name, id, 1)` is not `E13_OK`. -/
def Key.reserved : Key → Bool
  | .name s => s = "allusers".toList
  | .id n => n = 0xffffffff#32 ∨ n = 0#32

/-- `struct user13`; a `passhash` of `none` was never set. -/
structure User13 where
  uid : BitVec 32
  stt : ℤ
  passhash : Option (List UInt8)
deriving DecidableEq

section Users
variable (ac : Access13)

/-- The text that `db_column_text` copies; an empty one it refuses, which `acc_user_chk` does not
tell. -/
def columnText (bytes : List UInt8) : Option (List UInt8) :=
  let text := bytes.takeWhile (· ≠ 0)
  if text = [] then none else some text

def accUserChk (users : List UserRow) (key : Key) : Option (Except E13 User13) :=
  match dbCollect ac.fold 1 [key.user] users with
  | none => none
  | some (.error e) => some (.error e)
  | some (.ok []) => some (.error .notfound)
  | some (.ok (row :: _)) =>
    match row.pass with
    -- `strlen(NULL)`
    | none => none
    | some bytes => some (.ok ⟨columnUint row.id, columnInt row.stat, columnText bytes⟩)

def accGroupChk (groups : List GroupRow) (key : Key) : Option (Except E13 (BitVec 32)) :=
  match dbCollect ac.fold 1 [key.group] groups with
  | none => none
  | some (.error e) => some (.error e)
  | some (.ok []) => some (.error .notfound)
  | some (.ok (row :: _)) => some (.ok (columnUint row.id))

/-- `!memcmp(a, b, n)` for all `n` bytes of `a`; `none` when it reads on behind `b`. -/
def memcmp : List UInt8 → List UInt8 → Option Bool
  | [], _ => some true
  | _ :: _, [] => none
  | x :: a, y :: b => if x = y then memcmp a b else some false

/-- The password check of `acc_user_login` on what `acc_user_chk` has left in `user.passhash`. -/
def checkPass (passhash : Option (List UInt8)) (password : CStr) : Option Bool :=
  match passhash with
  | none => none
  | some text => memcmp (ac.passhash password) (text ++ [0])

/-- `acc_user_login`; `now` is the time of `d13s_clock`. `uid` is `*uid`. -/
def accUserLogin (users : List UserRow) (username : List Char) (password : CStr) (now : BitVec 64)
    (uid : BitVec 32) : Option (Ret × List UserRow × BitVec 32) :=
  if (Key.name username).reserved then some (.err .notvalid, users, uid)
  else
    match accUserChk ac users (.name username) with
    | none => none
    | some (.error e) => some (.err e, users, uid)
    | some (.ok user) =>
      if user.stt = accUsrSttIn then some (.err .exists_, users, uid)
      else
        match checkPass ac user.passhash password with
        | none => none
        | some false => some (.err .auth, users, uid)
        | some true =>
          let (ret, users) := dbUpdate ac.fold (Key.name username).user
            (fun row =>
              { row with stat := some (lowByte accUsrSttIn.toNat), lastlogin := some (lowByte now.toNat) })
            users
          some (if ret = .continue_ then .ok else ret, users, uid)

/-- `acc_user_chpass`, which does not look at `oldpass`. `unsized` is what SQLite makes of a blob that
is bound with the size -1. -/
def accUserChpass (users : List UserRow) (key : Key) (_oldpass newpass : CStr)
    (unsized : List UInt8 → List UInt8) : Ret × List UserRow :=
  if key.reserved then (.err .notvalid, users)
  else dbUpdate ac.fold key.user
    (fun row => { row with pass := some (unsized (ac.passhash newpass)) }) users

end Users

structure AccDb where
  users : List UserRow
  groups : List GroupRow
  memb : List MembRow
  acl : List AclRow

section Groups
variable (ac : Access13)

/-- The `gid`s of `acc_user_group_list`. -/
def accUserGroupList (db : AccDb) (key : Key) : Option (Except E13 (List (BitVec 32))) :=
  match accUserChk ac db.users key with
  | none => none
  | some (.error e) => some (.error e)
  | some (.ok usr) =>
    match dbCollect ac.fold 1 [.eq MembRow.uid 32 usr.uid.toNat] db.memb with
    | none => none
    | some (.error e) => some (.error e)
    | some (.ok rows) => some (.ok (rows.map fun row => columnUint row.gid))

/-- The condition of `acc_user_group_chk` and `acc_user_leave_group`. -/
def membLogic (uid gid : BitVec 32) : List (DbLogic MembRow) :=
  [.eq MembRow.uid 32 uid.toNat, .comb .and_, .eq MembRow.gid 32 gid.toNat]

/-- A user and a group that exist, or what `acc_user_chk` or `acc_group_chk` returns. -/
def chkBoth (db : AccDb) (user group : Key) : Option (Except E13 (BitVec 32 × BitVec 32)) :=
  match accUserChk ac db.users user with
  | none => none
  | some (.error e) => some (.error e)
  | some (.ok usr) =>
    match accGroupChk ac db.groups group with
    | none => none
    | some (.error e) => some (.error e)
    | some (.ok gid) => some (.ok (usr.uid, gid))

def accUserGroupChk (db : AccDb) (user group : Key) : Option Ret :=
  match chkBoth ac db user group with
  | none => none
  | some (.error e) => some (.err e)
  | some (.ok (uid, gid)) =>
    match dbCollect ac.fold 2 (membLogic uid gid) db.memb with
    | none => none
    | some (.error e) => some (.err e)
    | some (.ok []) => some (.err .notfound)
    | some (.ok (_ :: _)) => some .ok

def accUserJoinGroup (db : AccDb) (user group : Key) : Option (Ret × AccDb) :=
  match accUserGroupChk ac db user group with
  | none => none
  | some .ok => some (.err .exists_, db)
  | some _ =>
    match chkBoth ac db user group with
    | none => none
    | some (.error e) => some (.err e, db)
    | some (.ok (uid, gid)) =>
      match dbInsert [true, false, true, true, true]
        { regId := some (lowByte ac.regid.toNat)
          nrow := none
          gid := some (lowByte gid.toNat)
          uid := some (lowByte uid.toNat)
          stat := some (lowByte accMemsSttActive) } db.memb with
      | .error e => some (.err e, db)
      | .ok memb => some (.ok, { db with memb })

def accUserLeaveGroup (db : AccDb) (user group : Key) : Option (Ret × AccDb) :=
  match chkBoth ac db user group with
  | none => none
  | some (.error e) => some (.err e, db)
  | some (.ok (uid, gid)) =>
    match dbDelete 2 (membLogic uid gid) db.memb with
    | none => none
    | some (.error e) => some (.err e, db)
    -- a finished `DELETE` has no rows
    | some (.ok memb) => some (.err .notfound, { db with memb })

end Groups

section Accounts
variable (ac : Access13)

/-- `_acc_assert(name, id, 0)` for a name is `E13_OK`. -/
def accAssertGroup (name : List Char) : Bool := name ≠ "allgroups".toList

/-- `_acc_get_free_uid`: the id, and whether it is one that is used again. `anyUid` is the flag
`_ACC_FREEUIDF_ANY`. -/
def accGetFreeUid (users : List UserRow) (anyUid : Bool) : Option (Except E13 (Bool × BitVec 32)) :=
  if anyUid then some (.ok (false, 0xffffffff#32))
  else
    match dbCollect ac.fold 1 [.eq UserRow.stat 32 accUsrSttRemoved] users with
    | none => none
    | some (.error e) => some (.error e)
    | some (.ok (row :: _)) => some (.ok (true, columnUint row.id))
    | some (.ok []) =>
      match dbTop UserRow.id users with
      | none => some (.ok (false, 1))
      | some row =>
        if columnUint row.id + 1 = 0xffffffff#32 then some (.error .full)
        else some (.ok (false, columnUint row.id + 1))

def accUserAdd (db : AccDb) (name : List Char) (pass : CStr) : Option (Ret × AccDb) :=
  if name ≠ "allgroups".toList ∧ accAssertGroup name = false then some (.err .notvalid, db)
  else if name ≠ "allusers".toList ∧ accAssertGroup name = false then some (.err .notvalid, db)
  else
    match accUserChk ac db.users (.name name) with
    | none => none
    | some (.ok _) => some (.err .exists_, db)
    | some (.error _) =>
      match accGetFreeUid ac db.users (name = "allgroups".toList) with
      | none => none
      | some (.error e) => some (.err e, db)
      | some (.ok (true, uid)) =>
        let (ret, users) := dbUpdate ac.fold (.eq UserRow.id 32 uid.toNat)
          (fun row =>
            { row with
              name := some name
              pass := some (ac.passhash pass)
              lastlogin := some 0
              lastlogout := some 0
              stat := some (lowByte accUsrSttOut.toNat) }) db.users
        some (ret, { db with users })
      | some (.ok (false, uid)) =>
        match dbInsert [true, true, true, true, true, true, true]
          { id := some (lowByte uid.toNat)
            name := some name
            pass := some (ac.passhash pass)
            lastlogin := some 0
            lastlogout := some 0
            stat := some (lowByte accUsrSttOut.toNat) } db.users with
        | .error e => some (.err e, db)
        | .ok users => some (.ok, { db with users })

/-- `_acc_rm_uid_entries` for one user, with the memberships and the access list. A finished `DELETE`
is run once more by `db_step`. -/
def accRmUidEntries (db : AccDb) (uid : BitVec 32) : Option (Ret × AccDb) :=
  match dbDelete 1 [.eq MembRow.uid 32 uid.toNat] db.memb with
  | none => none
  | some (.error e) => some (.err e, db)
  | some (.ok memb) =>
    match dbDelete 1 [.eq AclRow.uid 32 uid.toNat] db.acl with
    | none => none
    | some (.error e) => some (.err e, { db with memb })
    | some (.ok acl) => some (.ok, { db with memb, acl })

def accUserRm (db : AccDb) (key : Key) : Option (Ret × AccDb) :=
  if key.reserved then some (.err .notvalid, db)
  else
    match accUserChk ac db.users key with
    | none => none
    | some (.error _) => some (.err .notfound, db)
    | some (.ok user) =>
      if user.stt = accUsrSttRemoved then some (.ok, db)
      else
        match accRmUidEntries db user.uid with
        | none => none
        | some (.ok, db) =>
          let (ret, users) := dbUpdate ac.fold (.eq UserRow.id 32 user.uid.toNat)
            (fun row => { row with stat := some (lowByte accUsrSttRemoved.toNat) }) db.users
          some (ret, { db with users })
        | some (ret, db) => some (ret, db)

end Accounts

section Permissions
variable (ac : Access13)

/-- `struct acc_acl_entry` -/
structure AclEntry where
  perm : BitVec 8
  uid : BitVec 32
  gid : BitVec 32
deriving DecidableEq

/-- `AND ( a OR b OR ... )` -/
def oneOf {R : Type} : List (DbLogic R) → List (DbLogic R)
  | [] => []
  | l :: ls => .comb .and_ :: .comb .openp :: l ::
      ((ls.flatMap fun l => [.comb .or_, l]) ++ [.comb .closep])

/-- The entries that `_acc_load_acl` writes to `logic`. -/
def aclLogic (objid : BitVec 64) (uids gids : List (BitVec 32)) : List (DbLogic AclRow) :=
  .eq AclRow.objid 64 objid.toNat ::
    (oneOf (uids.reverse.map fun uid => .eq AclRow.uid 32 uid.toNat) ++
      oneOf (gids.reverse.map fun gid => .eq AclRow.gid 32 gid.toNat))

/-- `_acc_load_acl`: the result, `*nacl`, and `*acllist` if it was set. `logic` has `nuid+ngid+1`
entries, and both counts are 0 when they are used again for `db_collect`. -/
def accLoadAcl (acl : List AclRow) (objid : BitVec 64) (uids gids : List (BitVec 32)) :
    Option (Ret × ℕ × Option (List AclEntry)) :=
  if uids.length + gids.length + 1 < (aclLogic objid uids gids).length then none
  else
    match dbCollect ac.fold 1 (aclLogic objid uids gids) acl with
    | none => none
    | some (.error e) => some (.err e, 0, none)
    -- no entry is made, under `if(ret = E13_OK)`, and the last step ends in `E13_NOTFOUND`
    | some (.ok rows) => some (.err .notfound, rows.length, none)

/-- The walk through `acllist` in `acc_user_access`. -/
def scanAcl (perm : BitVec 8) (uid : BitVec 32) : List AclEntry → Ret
  | [] => .err .perm
  | entry :: entries =>
    if entry.uid = uid then
      if perm &&& entry.perm ≠ 0 then .ok else .err .perm
    else scanAcl perm uid entries

def accUserAccess (db : AccDb) (objid : BitVec 64) (user : Key) (perm : BitVec 8) : Option Ret :=
  match accUserChk ac db.users user with
  | none => none
  | some (.error e) => some (.err e)
  | some (.ok usr) =>
    match accUserGroupList ac db (.id usr.uid) with
    -- `ngrp` is not set
    | none | some (.error _) => none
    | some (.ok gids) =>
      match accLoadAcl ac db.acl objid [usr.uid] gids with
      | none => none
      | some (_, _, acllist) => acllist.map (scanAcl perm usr.uid)

/-- `_acc_perm_chk(ac, objid, aclid, perm, 1)` -/
def accPermChk (acl : List AclRow) (objid : BitVec 64) (uid : BitVec 32) : Option (Except E13 (BitVec 8)) :=
  match dbCollect ac.fold 2
    [.eq AclRow.objid 64 objid.toNat, .comb .and_, .eq AclRow.uid 32 uid.toNat] acl with
  | none => none
  | some (.error e) => some (.error e)
  | some (.ok []) => some (.error .notfound)
  | some (.ok (row :: _)) => some (.ok ((columnUint row.perm).setWidth 8))

/-- `acc_perm_user_chk`; it looks for the argument `uid`, not for the one it has found. -/
def accPermUserChk (db : AccDb) (objid : BitVec 64) (user : Key) (uid : BitVec 32) : Option (Except E13 (BitVec 8)) :=
  match accUserChk ac db.users user with
  | none => none
  | some (.error e) => some (.error e)
  | some (.ok _) => accPermChk ac db.acl objid uid

def accPermUserAdd (db : AccDb) (objid : BitVec 64) (user : Key) (perm : BitVec 8) : Option (Ret × AccDb) :=
  match accUserChk ac db.users user with
  | none => none
  | some (.error e) => some (.err e, db)
  | some (.ok usr) =>
    match accLoadAcl ac db.acl objid [usr.uid] [] with
    | none => none
    | some (.ok, 0, _) =>
      match dbInsert [true, false, false, true, true, false]
        { regId := some (lowByte ac.regid.toNat)
          nrow := none
          gid := none
          uid := some (lowByte usr.uid.toNat)
          objid := some (lowByte objid.toNat)
          perm := none } db.acl with
      | .error e => some (.err e, db)
      | .ok acl => some (.ok, { db with acl })
    | some (.ok, _ + 1, acllist) =>
      match acllist with
      | none | some [] => none
      | some (entry :: _) =>
        if perm = entry.perm then some (.ok, db)
        else
          let (ret, acl) := dbUpdate ac.fold (.eq AclRow.uid 32 usr.uid.toNat)
            (fun row => { row with perm := some (lowByte perm.toNat) }) db.acl
          some (ret, { db with acl })
    | some (ret, _) => some (ret, db)

def accPermUserRm (db : AccDb) (_objid : BitVec 64) (user : Key) : Option (Ret × AccDb) :=
  match accUserChk ac db.users user with
  | none => none
  | some (.error e) => some (.err e, db)
  | some (.ok usr) =>
    match dbDelete 1 [.eq AclRow.uid 32 usr.uid.toNat] db.acl with
    | none => none
    | some (.error e) => some (.err e, db)
    | some (.ok acl) => some (.ok, { db with acl })

end Permissions
end Prj.Lib13
