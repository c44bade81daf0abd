import Prj.Lib13.Acc

/-! Logging in and changing a password. -/
namespace Prj.Lib13
open List Option

section Lemmas
variable {ac : Access13} {users : List UserRow} {key : Key} {row : UserRow} {a a' b : List UInt8}

theorem accUserChk_eq (ac : Access13) (users : List UserRow) (key : Key) : accUserChk ac users key =
      match users.find? fun row => key.user.holds ac.fold row with
      | none => some (.error .notfound)
      | some row =>
        match row.pass with
        | none => none
        | some bytes => some (.ok ⟨columnUint row.id, columnInt row.stat, columnText bytes⟩) := by
  rw [accUserChk, dbCollect_one (by cases key <;> rfl), ← head?_filter]
  cases users.filter fun row => key.user.holds ac.fold row <;> rfl

def Key.Names (key : Key) (row : UserRow) : Prop :=
  match key with
  | .name s => row.name = some s
  | .id n => row.id = some n.toInt

theorem Key.holds_of_names (fold : Char → Char) (h : key.Names row) : key.user.holds fold row = true := by
  cases key with
  | name s =>
    have hname : row.name = some s := h
    simp [Key.user, Key.logic, DbLogic.holds, hname, likePattern_self]
  | id n =>
    have hid : row.id = some n.toInt := h
    simp [Key.user, Key.logic, DbLogic.holds, hid, BitVec.toInt_eq_toNat_bmod]

theorem memcmp_eq_true_iff : memcmp a b = some true ↔ a <+: b := by
  induction a generalizing b with
  | nil => simp [memcmp]
  | cons x a ih =>
    cases b with
    | nil => simp [memcmp]
    | cons y b =>
      rw [memcmp, cons_prefix_cons]
      split_ifs with hxy
      · simp [hxy, ih]
      · simp [hxy]

theorem memcmp_eq_false (hpre : a <+: b) (hlen : a'.length = a.length) (hne : a' ≠ a) : memcmp a' b = some false := by
  induction a generalizing a' b with
  | nil => exact absurd (length_eq_zero_iff.1 hlen) hne
  | cons x a ih =>
    obtain ⟨c, rfl⟩ := hpre
    cases a' with
    | nil => simp at hlen
    | cons x' a' =>
      rw [cons_append, memcmp]
      split_ifs with hx
      · subst hx
        exact ih (prefix_append a c) (by simpa using hlen) fun heq => hne (by rw [heq])
      · rfl

end Lemmas

section Login
variable {ac : Access13} {users users' : List UserRow} {username : List Char} {password : CStr}
  {now : BitVec 64} {uid uid' : BitVec 32}

def UserRow.login (now : BitVec 64) (row : UserRow) : UserRow :=
  { row with stat := some 20, lastlogin := some (lowByte now.toNat) }

/-- The login that returned has found a row of this name that may log in with this password, and
`uid` and the table tell so. -/
def LoginRight (ac : Access13) (users : List UserRow) (username : List Char) (password : CStr)
    (users' : List UserRow) (uid' : BitVec 32) : Prop :=
  ∃ (j : ℕ) (row : UserRow), users[j]? = some row ∧ row.name = some username ∧ row.stat ≠ some accUsrSttRemoved ∧
    row.stat ≠ some accUsrSttIn ∧ row.pass = some (ac.passhash password) ∧
    uid' = columnUint row.id ∧
    ∀ i ≠ j, ∀ r r', users[i]? = some r → users'[i]? = some r' → r'.stat = r.stat ∧ r'.lastlogin = r.lastlogin

/-- A row of this name may log in, `uid` has its id already, and the login would not change any other
row that the name matches as a pattern. -/
def LoginSafe (ac : Access13) (users : List UserRow) (username : List Char) (password : CStr)
    (now : BitVec 64) (uid : BitVec 32) : Prop :=
  ∃ (j : ℕ) (row : UserRow), users[j]? = some row ∧ row.name = some username ∧ row.stat ≠ some accUsrSttRemoved ∧
    row.stat ≠ some accUsrSttIn ∧ row.pass = some (ac.passhash password) ∧
    uid = columnUint row.id ∧
    ∀ i ≠ j, ∀ r, users[i]? = some r → (Key.name username).user.holds ac.fold r = true →
      r.stat = some accUsrSttIn ∧ r.lastlogin = some (lowByte now.toNat)

theorem accUserLogin_ok (h : accUserLogin ac users username password now uid = some (.ok, users', uid')) :
    uid' = uid ∧ users' = users.map fun row =>
      if (Key.name username).user.holds ac.fold row then row.login now else row := by
  unfold accUserLogin at h
  split_ifs at h
  · simp at h
  · rw [accUserChk_eq] at h
    cases hfind : users.find? fun row => (Key.name username).user.holds ac.fold row with
    | none => simp [hfind] at h
    | some row =>
      cases hpass : row.pass with
      | none => simp [hfind, hpass] at h
      | some bytes =>
        have hholds : (Key.name username).user.holds ac.fold row = true := by
          have hsome := find?_some hfind
          exact hsome
        simp only [hfind, hpass, dbUpdate_of_mem (mem_of_find?_eq_some hfind) hholds] at h
        split_ifs at h
        · simp at h
        · simp at *
        · split at h
          · simp at h
          · simp at h
          · simp only [some.injEq, Prod.mk.injEq] at h
            exact ⟨h.2.2.symm, h.2.1.symm⟩

theorem checkPass_self (hnul : 0 ∉ ac.passhash password) (hpos : 0 < ac.hashlen) :
    checkPass ac (columnText (ac.passhash password)) password = some true := by
  have htext : (ac.passhash password).takeWhile (· ≠ 0) = ac.passhash password := by
    rw [takeWhile_eq_self_iff]
    intro b hb
    simpa using fun hzero : b = 0 => hnul (hzero ▸ hb)
  have hne : ac.passhash password ≠ [] := by
    intro hnil
    have hlen := ac.length_hash (password.bytes.take accMaxPasslen)
    rw [← Access13.passhash, hnil, length_nil] at hlen
    omega
  rw [columnText, htext, if_neg hne, checkPass, memcmp_eq_true_iff]
  exact prefix_append _ _

theorem accUserLogin_of_find {row : UserRow} (hres : (Key.name username).reserved = false)
    (hfind : (users.find? fun row => (Key.name username).user.holds ac.fold row) = some row)
    (hstat : columnInt row.stat ≠ accUsrSttIn) (hpass : row.pass = some (ac.passhash password))
    (hnul : 0 ∉ ac.passhash password) (hpos : 0 < ac.hashlen) :
    accUserLogin ac users username password now uid = some (.ok, users.map fun row =>
        if (Key.name username).user.holds ac.fold row then row.login now else row, uid) := by
  have hholds : (Key.name username).user.holds ac.fold row = true := by
    have hsome := find?_some hfind
    exact hsome
  rw [accUserLogin, if_neg (by simp [hres]), accUserChk_eq, hfind]
  simp only [hpass, if_neg hstat, checkPass_self hnul hpos, dbUpdate_of_mem (mem_of_find?_eq_some hfind) hholds]
  rfl

/-- A login is right exactly when it was safe. -/
theorem accUserLogin_right_iff (h : accUserLogin ac users username password now uid = some (.ok, users', uid')) :
    LoginRight ac users username password users' uid' ↔ LoginSafe ac users username password now uid := by
  obtain ⟨rfl, rfl⟩ := accUserLogin_ok h
  have hget : ∀ (i : ℕ) (r : UserRow), users[i]? = some r → ∀ r', (users.map fun row =>
      if (Key.name username).user.holds ac.fold row then row.login now else row)[i]? = some r' ↔
      r' = if (Key.name username).user.holds ac.fold r then r.login now else r := by
    intro i r hr r'
    rw [getElem?_map, hr, map_some, some.injEq]
    exact eq_comm
  constructor
  · rintro ⟨j, row, hrow, hname, hrem, hin, hpass, hid, hframe⟩
    refine ⟨j, row, hrow, hname, hrem, hin, hpass, hid, fun i hi r hr hholds => ?_⟩
    obtain ⟨hstat, hlast⟩ := hframe i hi r (r.login now) hr ((hget i r hr _).2 (by rw [if_pos hholds]))
    exact ⟨hstat.symm, hlast.symm⟩
  · rintro ⟨j, row, hrow, hname, hrem, hin, hpass, hid, hsafe⟩
    refine ⟨j, row, hrow, hname, hrem, hin, hpass, hid, fun i hi r r' hr hr' => ?_⟩
    rw [(hget i r hr r').1 hr']
    split_ifs with hholds
    · obtain ⟨hstat, hlast⟩ := hsafe i hi r hr hholds
      exact ⟨hstat.symm, hlast.symm⟩
    · exact ⟨rfl, rfl⟩

end Login

section Chpass
variable {ac : Access13} {users : List UserRow} {key : Key} {row : UserRow} {old new : CStr} {j : ℕ}
  {unsized : List UInt8 → List UInt8} {stored : List UInt8}

def Accepts (ac : Access13) (row : UserRow) (password : CStr) : Option Bool :=
  checkPass ac (row.pass.bind columnText) password

/-- The password of row `j` is changed if `old` is right, `new` is the one that is accepted
afterwards, and the other rows stay. -/
def ChpassRight (ac : Access13) (users : List UserRow) (j : ℕ) (row : UserRow) (old new : CStr)
    (r : Ret × List UserRow) : Prop :=
  ∃ row', r.2[j]? = some row' ∧ (row'.pass ≠ row.pass → row.pass = some (ac.passhash old)) ∧
    (r.1 = .ok → Accepts ac row' new = some true ∧ ∀ other, other ≠ new → Accepts ac row' other = some false) ∧
    ∀ i ≠ j, r.2[i]? = users[i]?

/-- `stored` is read back as the hash of a password that is not cut off. -/
def Stores (ac : Access13) (new : CStr) (stored : List UInt8) : Prop :=
  stored.takeWhile (· ≠ 0) ≠ [] ∧ ac.passhash new <+: stored.takeWhile (· ≠ 0) ++ [0] ∧
    new.bytes.length < accMaxPasslen

theorem accepts_iff (hpass : row.pass = some stored) :
    (Accepts ac row new = some true ∧ ∀ other, other ≠ new → Accepts ac row other = some false) ↔
      Stores ac new stored := by
  have haccepts : ∀ p, Accepts ac row p = checkPass ac (columnText stored) p := by
    intro p
    rw [Accepts, hpass, bind_some]
  by_cases hnil : stored.takeWhile (· ≠ 0) = []
  · refine iff_of_false ?_ fun h => h.1 hnil
    rintro ⟨h, -⟩
    rw [haccepts, columnText, if_pos hnil] at h
    simp [checkPass] at h
  have hcheck : ∀ p, Accepts ac row p = memcmp (ac.passhash p) (stored.takeWhile (· ≠ 0) ++ [0]) := by
    intro p
    rw [haccepts, columnText, if_neg hnil, checkPass]
  simp only [hcheck, memcmp_eq_true_iff]
  constructor
  · rintro ⟨hpre, hother⟩
    refine ⟨hnil, hpre, ?_⟩
    by_contra hlong
    -- one byte more is cut off
    have hmore : (0 : UInt8) ∉ new.bytes ++ [1] := by
      simp [new.no_nul]
    have hsame : ac.passhash ⟨new.bytes ++ [1], hmore⟩ = ac.passhash new := by
      rw [Access13.passhash]
      congr 1
      exact take_append_of_le_length (by omega)
    have hfail := hother ⟨new.bytes ++ [1], hmore⟩ fun heq => by
      have hlen := congrArg (fun s => s.bytes.length) heq
      simp at hlen
    rw [hsame, memcmp_eq_true_iff.2 hpre] at hfail
    simp at hfail
  · rintro ⟨-, hpre, hshort⟩
    refine ⟨hpre, fun other hne => memcmp_eq_false hpre (by simp [Access13.passhash, ac.length_hash]) ?_⟩
    intro heq
    have htake := ac.hash_injective _ _ (by simp [accMaxPasslen]) (by simp [accMaxPasslen]) heq
    rw [take_of_length_le hshort.le] at htake
    have hlen := congrArg List.length htake
    rw [length_take] at hlen
    rw [take_of_length_le (by omega)] at htake
    cases other
    cases new
    exact hne (by simpa using htake)

/-- `acc_user_chpass` is right exactly for reserved keys, which it refuses, or when the old password
happens to be right or what is stored does not change, SQLite stores what is read back as the new
hash, and every other row that the key matches has it already. -/
theorem accUserChpass_right_iff (hrow : users[j]? = some row) (hkey : key.Names row) :
    ChpassRight ac users j row old new (accUserChpass ac users key old new unsized) ↔ key.reserved = true ∨
      (row.pass = some (ac.passhash old) ∨ row.pass = some (unsized (ac.passhash new))) ∧
        Stores ac new (unsized (ac.passhash new)) ∧
        ∀ i ≠ j, ∀ r, users[i]? = some r → key.user.holds ac.fold r = true →
          r.pass = some (unsized (ac.passhash new)) := by
  by_cases hres : key.reserved = true
  · rw [accUserChpass, if_pos hres]
    refine iff_of_true ⟨row, hrow, fun hne => absurd rfl hne, ?_, fun _ _ => rfl⟩ (.inl hres)
    intro hok
    cases hok
  have hholds := Key.holds_of_names ac.fold hkey
  rw [accUserChpass, if_neg hres, dbUpdate_of_mem (mem_of_getElem? hrow) hholds, ChpassRight]
  generalize unsized (ac.passhash new) = stored
  have hrow' : (users.map fun row => if key.user.holds ac.fold row then
      { row with pass := some stored } else row)[j]? = some { row with pass := some stored } := by
    rw [getElem?_map, hrow, map_some, if_pos hholds]
  have haccepts : (Accepts ac { row with pass := some stored } new = some true ∧
      ∀ other, other ≠ new → Accepts ac { row with pass := some stored } other = some false) ↔
      Stores ac new stored := accepts_iff rfl
  simp only [hrow', some.injEq, exists_eq_left', hres, Bool.false_eq_true, false_or, forall_const, haccepts]
  refine and_congr ?_ (and_congr Iff.rfl ?_)
  · constructor
    · intro h
      by_cases hsame : some stored = row.pass
      · exact .inr hsame.symm
      · exact .inl (h hsame)
    · rintro (hold | hsame) hne
      · exact hold
      · exact absurd hsame.symm hne
  · refine forall_congr' fun i => imp_congr_right fun _ => ?_
    rw [getElem?_map]
    cases users[i]? with
    | none => simp
    | some r =>
      by_cases hr : key.user.holds ac.fold r = true
      · have heq : { r with pass := some stored } = r ↔ r.pass = some stored := by
          cases r
          simp [eq_comm]
        simp [hr, heq]
      · simp [hr]

end Chpass

/-! A hash without collisions, and a user. -/

def padHash (s : List UInt8) : List UInt8 := (List.replicate (2048 - s.length) 2 ++ 1 :: s).take 2049

theorem length_padHash (s : List UInt8) : (padHash s).length = 2049 := by
  simp only [padHash, length_take, length_append, length_replicate, length_cons]
  omega

theorem nul_not_mem_padHash {s : List UInt8} (hs : 0 ∉ s) : 0 ∉ padHash s := by
  intro hmem
  have hall := mem_of_mem_take hmem
  simp [mem_replicate, hs] at hall

theorem padHash_injective (s t : List UInt8) (hs : s.length ≤ 2048) (ht : t.length ≤ 2048)
    (h : padHash s = padHash t) : s = t := by
  have hall : ∀ u : List UInt8, u.length ≤ 2048 → padHash u = List.replicate (2048 - u.length) 2 ++ 1 :: u := by
    intro u hu
    refine take_of_length_le ?_
    simp only [length_append, length_replicate, length_cons]
    omega
  have hdrop : ∀ (n : ℕ) (u : List UInt8), (List.replicate n 2 ++ 1 :: u).dropWhile (· = 2) = 1 :: u := by
    intro n u
    induction n with
    | zero => simp
    | succ n ih => simp [replicate_succ, ih]
  have hst := congrArg (List.dropWhile (· = 2)) h
  rw [hall s hs, hall t ht, hdrop, hdrop] at hst
  exact (List.cons.inj hst).2

def padAccess : Access13 where
  hash := padHash
  hashlen := 2049
  regid := 1
  fold := Char.toLower
  length_hash := length_padHash
  hash_injective := padHash_injective

def secret : CStr := ⟨[112], by decide⟩

def bob : UserRow where
  id := some 7
  name := some "bob".toList
  pass := some (padAccess.passhash secret)
  lastlogin := some 0
  lastlogout := some 0
  stat := some 40

theorem accUserLogin_bob {username : List Char} (hres : (Key.name username).reserved = false)
    (hmatch : (Key.name username).user.holds Char.toLower bob = true) :
    accUserLogin padAccess [bob] username secret 0 7 = some (.ok, [bob.login 0], 7) := by
  have hfold : padAccess.fold = Char.toLower := rfl
  have hfind : ([bob].find? fun row => (Key.name username).user.holds padAccess.fold row) = some bob := by
    simp [hfold, hmatch]
  have hnul : (0 : UInt8) ∉ padAccess.passhash secret := nul_not_mem_padHash (by decide)
  rw [accUserLogin_of_find hres hfind (by decide) rfl hnul (by decide)]
  simp [hfold, hmatch]

theorem forall_ne_getElem?_singleton {P : UserRow → Prop} {row : UserRow} :
    ∀ i ≠ 0, ∀ r, [row][i]? = some r → P r := by
  rintro (- | i) hi r hr
  · exact absurd rfl hi
  · cases hr

theorem accUserLogin_right_iff_bob : LoginRight padAccess [bob] "bob".toList secret [bob.login 0] 7 :=
  (accUserLogin_right_iff (accUserLogin_bob (by decide) (by decide))).2
    ⟨0, bob, rfl, rfl, by decide, by decide, rfl, by decide, forall_ne_getElem?_singleton⟩

/-- The pattern `_o%` logs the user in, although nobody has this name. -/
theorem not_loginRight_pattern :
    accUserLogin padAccess [bob] "_o%".toList secret 0 7 = some (.ok, [bob.login 0], 7) ∧
      ¬LoginRight padAccess [bob] "_o%".toList secret [bob.login 0] 7 := by
  refine ⟨accUserLogin_bob (by decide) (by decide), ?_⟩
  rintro ⟨j, row, hrow, hname, -⟩
  obtain rfl : row = bob := by simpa using mem_of_getElem? hrow
  exact absurd hname (by decide)

/-- The old password is right, and the new one is stored as it is read back. -/
theorem accUserChpass_right_iff_bob : ChpassRight padAccess [bob] 0 bob secret ⟨[113], by decide⟩
    (accUserChpass padAccess [bob] (.id 7) secret ⟨[113], by decide⟩ id) := by
  have hkey : (Key.id 7).Names bob := rfl
  refine (accUserChpass_right_iff rfl hkey).2 (.inr ⟨.inl rfl, ?_, forall_ne_getElem?_singleton⟩)
  have hnul : (0 : UInt8) ∉ padHash [113] := nul_not_mem_padHash (by decide)
  have hall : (padHash [113]).takeWhile (· ≠ 0) = padHash [113] := by
    rw [takeWhile_eq_self_iff]
    intro b hb
    simpa using ne_of_mem_of_not_mem hb hnul
  refine ⟨?_, ?_, by decide⟩
  · change (padHash [113]).takeWhile (· ≠ 0) ≠ []
    decide
  · change padHash [113] <+: (padHash [113]).takeWhile (· ≠ 0) ++ [0]
    rw [hall]
    exact prefix_append _ _

/-- The empty password is not the old one, and yet the password changes. -/
theorem not_chpassRight_wrong_old : ¬ChpassRight padAccess [bob] 0 bob ⟨[], by decide⟩ ⟨[113], by decide⟩
      (accUserChpass padAccess [bob] (.id 7) ⟨[], by decide⟩ ⟨[113], by decide⟩ id) := by
  rintro ⟨row', hrow, hold, -⟩
  have hne : ∀ s t : List UInt8, s.length ≤ 2048 → t.length ≤ 2048 → s ≠ t →
      some (padHash s) ≠ some (padHash t) := fun s t hs ht hst heq =>
    hst (padHash_injective s t hs ht (some.inj heq))
  obtain rfl : { bob with pass := some (padHash [113]) } = row' := some.inj hrow
  exact hne [112] [] (by decide) (by decide) (by decide) (hold (hne [113] [112] (by decide) (by decide) (by decide)))

end Prj.Lib13
