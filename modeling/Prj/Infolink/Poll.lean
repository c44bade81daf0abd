import Mathlib.Data.Int.Notation
import Mathlib.Data.List.Nodup
import Prj.Lib13.Error

/-! The poll list of `infolink/ilink_poll_select.c` under `ilink_poll_add` and `ilink_poll_rm`, with
`fd_set` as an array of bits. `n` and `refcount`, which are only written here, are left out. The mutex
is one that its owner cannot lock twice. -/
namespace Prj.Infolink
open Prj.Lib13

/-- `ILINK_POLL_WR`, `ILINK_POLL_RD` and `ILINK_POLL_EX` -/
inductive Dir
  | wr
  | rd
  | ex
deriving DecidableEq, Repr

/-- The three bits of `pollflags` or of `dir`; the others are not read. -/
abbrev Dirs := Dir → Bool

def Dirs.any (dir : Dirs) : Bool := dir .wr || dir .rd || dir .ex

/-- `struct ilink_poll_list` and the `pollflags` of all links. `items` are the links from `first` on
along `plistnext`. -/
structure PollList (Link : Type) where
  items : List Link
  last : Option Link
  fdmax : ℤ
  nfds : Dir → ℤ
  fds : Dir → ℤ → Bool
  bak : Dir → ℤ → Bool
  pollflags : Link → Dirs
  locked : Bool

/-- The sockets of the links, and whether the list has a mutex. -/
structure Env (Link : Type) where
  sock : Link → ℤ
  mx : Bool

def fdSetSize : ℤ := 1024

section Model
variable {Link : Type} [DecidableEq Link] (env : Env Link)

/-- `FD_SET` in both sets and the counter. -/
def PollList.setFd (d : Dir) (k : ℤ) (s : PollList Link) : Option (PollList Link) :=
  if 0 ≤ k ∧ k < fdSetSize then
    some { s with
        fds := Function.update s.fds d (Function.update (s.fds d) k true)
        bak := Function.update s.bak d (Function.update (s.bak d) k true)
        nfds := Function.update s.nfds d (s.nfds d + 1) }
  else none

def addDir (dir : Dirs) (found : Bool) (k : ℤ) (d : Dir) (s : PollList Link) : Option (PollList Link) :=
  if dir d = false then some s
  else if found then
    if s.fds d k then some s else s.setFd d k
  else s.setFd d k

/-- The step for exceptions. For a socket that is in the list it jumps to `addrd`, and from there to
the same test again. -/
def addEx (dir : Dirs) (found : Bool) (k : ℤ) (s : PollList Link) : Option (PollList Link) :=
  if dir .ex = false then some s
  else if found then
    if s.fds .ex k then some s else none
  else s.setFd .ex k

/-- `list->last->plistnext = link` for a link that is not in the list. -/
def chain (last : Option Link) (link : Link) (items : List Link) : Option (List Link) :=
  match last with
  | none => none
  | some l => some (if l ∈ items then items.takeWhile (· ≠ l) ++ [l, link] else items)

/-- `ilink_poll_lock` waits for a mutex that is never unlocked. -/
def blocks (nolock : Bool) (s : PollList Link) : Bool := env.mx && !nolock && s.locked

/-- `ilink_poll_add`; `none` when it does not return or is undefined. -/
def pollAdd (link : Link) (dir : Dirs) (nolock : Bool) (s : PollList Link) : Option (PollList Link) :=
  if blocks env nolock s then none
  else
    let k := env.sock link
    let found := s.items.any fun ent => env.sock ent = k
    match ((addDir dir found k .wr s).bind (addDir dir found k .rd)).bind (addEx dir found k) with
    | none => none
    | some s =>
      let s := { s with
        pollflags := Function.update s.pollflags link fun d => s.pollflags link d || dir d }
      if found then some s
      else
        let s := { s with fdmax := if s.fdmax < k then k else s.fdmax }
        if s.items = [] then some { s with items := [link], last := some link }
        else (chain s.last link s.items).map fun items => { s with items, last := some link }

/-- `ilink_poll_rm`. It goes on with `link->next`, which `_ilink_init_link` sets to NULL and nothing
else writes, so that it looks at the first link only. -/
def pollRm (sockfd : ℤ) (dir : Dirs) (nolock : Bool) (s : PollList Link) : Option (Ret × PollList Link) :=
  if blocks env nolock s then none
  else
    match s.items with
    | [] => some (.err .notfound, { s with locked := s.locked || (env.mx && !nolock) })
    | link :: _ =>
      if env.sock link = sockfd then
        let flags := s.pollflags link
        some (.ok, { s with
            items := []
            last := if s.last = some link then none else s.last
            nfds := fun d => if dir d && flags d then s.nfds d - 1 else s.nfds d
            fds := fun d k => if dir d && flags d && k = sockfd then false else s.fds d k
            bak := fun d k => if dir d && flags d && k = sockfd then false else s.bak d k
            pollflags := Function.update s.pollflags link fun d => flags d && !dir d
            fdmax :=
              if Dirs.any fun d => flags d && !dir d then s.fdmax
              else if sockfd = s.fdmax then -1 else 0 })
      else some (.err .notfound, { s with locked := s.locked || (env.mx && !nolock) })

inductive PollCall (Link : Type)
  | add (link : Link) (dir : Dirs) (nolock : Bool)
  | rm (sockfd : ℤ) (dir : Dirs) (nolock : Bool)

def PollCall.run (s : PollList Link) : PollCall Link → Option (PollList Link)
  | .add link dir nolock => pollAdd env link dir nolock s
  | .rm sockfd dir nolock => (pollRm env sockfd dir nolock s).map Prod.snd

/-- After `ilink_poll_init`, which does not set `last`, with links that are not in use. -/
def PollList.init (last : Option Link) : PollList Link where
  items := []
  last := last
  fdmax := 0
  nfds _ := 0
  fds _ _ := false
  bak _ _ := false
  pollflags _ _ := false
  locked := false

/-- What the list is for: the directions for which each link is registered, and the links with at
least one of them in the order in which they came. -/
structure Registered (Link : Type) where
  order : List Link
  dirs : Link → Dirs

def Registered.none : Registered Link := ⟨[], fun _ _ => false⟩

def Registered.step (r : Registered Link) : PollCall Link → Registered Link
  | .add link dir _ =>
    ⟨if link ∈ r.order ∨ dir.any = false then r.order else r.order ++ [link],
      Function.update r.dirs link fun d => r.dirs link d || dir d⟩
  | .rm sockfd dir _ =>
    let dirs : Link → Dirs := fun x d => r.dirs x d && !(env.sock x = sockfd && dir d)
    ⟨r.order.filter fun x => (dirs x).any, dirs⟩

structure Right (s : PollList Link) (r : Registered Link) : Prop where
  nodup : s.items.Nodup
  mem : ∀ x, x ∈ s.items ↔ (r.dirs x).any = true
  nfds : ∀ d, s.nfds d = r.order.countP fun x => r.dirs x d
  bak : ∀ d k, s.bak d k = true ↔ ∃ x, r.dirs x d = true ∧ env.sock x = k
  fdmax : ∀ x ∈ s.items, env.sock x ≤ s.fdmax
  last : s.items ≠ [] → s.last = s.items.getLast?

/-- Every call returns, and the list is right after each. -/
def RightRun : PollList Link → Registered Link → List (PollCall Link) → Prop
  | _, _, [] => True
  | s, r, call :: calls =>
    ∃ s', call.run env s = some s' ∧ Right env s' (r.step env call) ∧ RightRun s' (r.step env call) calls

def PollCall.locks : PollCall Link → Bool
  | .add _ _ nolock | .rm _ _ nolock => env.mx && !nolock

/-- The call does not unlock the mutex: the socket is not that of the first link. -/
def PollCall.leaves (r : Registered Link) : PollCall Link → Bool
  | .add _ _ _ => false
  | .rm sockfd _ nolock =>
    env.mx && !nolock && !r.order.head?.any fun x => env.sock x = sockfd

/-- The calls that work. A new link has a socket that no registered one has, and a direction; one that
is registered does not get exceptions as a new direction. A link is removed with all its directions,
and only when it is the only one. -/
def PollCall.Careful (r : Registered Link) : PollCall Link → Prop
  | .add link dir _ =>
    match r.order.find? fun x => env.sock x = env.sock link with
    | .none => dir.any = true ∧ 0 ≤ env.sock link ∧ env.sock link < fdSetSize
    | some x => dir.any = false ∨ x = link ∧ (dir .ex = true → r.dirs link .ex = true)
  | .rm sockfd dir _ =>
    match r.order with
    | [] => True
    | x :: rest =>
      if env.sock x = sockfd then rest = [] ∧ ∀ d, r.dirs x d = true → dir d = true
      else ∀ y ∈ rest, env.sock y = sockfd → ∀ d, r.dirs y d = true → dir d = false

def CarefulRun : Bool → Registered Link → List (PollCall Link) → Prop
  | _, _, [] => True
  | locked, r, call :: calls =>
    (call.locks env = true → locked = false) ∧ call.Careful env r ∧
      CarefulRun (locked || call.leaves env r) (r.step env call) calls

end Model

/-! What careful calls keep of the poll list, and `ilink_poll_add` on it. -/

open List Option

variable {Link : Type} {env : Env Link} {s s' : PollList Link} {r : Registered Link} {locked nolock : Bool}
  {dir : Dirs}

theorem Dirs.any_eq_true_iff : dir.any = true ↔ ∃ d, dir d = true := by
  unfold Dirs.any
  constructor
  · intro h
    rw [Bool.or_eq_true, Bool.or_eq_true] at h
    rcases h with (h | h) | h
    all_goals exact ⟨_, h⟩
  · rintro ⟨d, hd⟩
    cases d <;> simp [hd]

theorem Dirs.any_eq_false_iff : dir.any = false ↔ ∀ d, dir d = false := by
  rw [← Bool.not_eq_true, Dirs.any_eq_true_iff]
  simp

structure Inv (env : Env Link) (s : PollList Link) (locked : Bool) (r : Registered Link) : Prop where
  items : s.items = r.order
  nodup : r.order.Nodup
  mem : ∀ x, x ∈ r.order ↔ (r.dirs x).any = true
  flags : s.pollflags = r.dirs
  nfds : ∀ d, s.nfds d = r.order.countP fun x => r.dirs x d
  bak : ∀ d k, s.bak d k = true ↔ ∃ x, r.dirs x d = true ∧ env.sock x = k
  fds : s.fds = s.bak
  fdmax : ∀ x ∈ r.order, env.sock x ≤ s.fdmax
  last : r.order ≠ [] → s.last = r.order.getLast?
  inj : ∀ x ∈ r.order, ∀ y ∈ r.order, env.sock x = env.sock y → x = y
  range : ∀ x ∈ r.order, 0 ≤ env.sock x ∧ env.sock x < fdSetSize
  locked : s.locked = locked

theorem Inv.right (h : Inv env s locked r) : Right env s r := by
  constructor
  · rw [h.items]
    exact h.nodup
  · rw [h.items]
    exact h.mem
  · exact h.nfds
  · exact h.bak
  · rw [h.items]
    exact h.fdmax
  · rw [h.items]
    exact h.last

variable {x : Link} {d : Dir}

theorem Inv.mem_of_dirs (h : Inv env s locked r) (hd : r.dirs x d = true) : x ∈ r.order :=
  (h.mem x).2 (Dirs.any_eq_true_iff.2 ⟨d, hd⟩)

theorem Inv.dirs_of_not_mem (h : Inv env s locked r) (hx : x ∉ r.order) (d : Dir) : r.dirs x d = false := by
  by_contra hd
  exact hx (h.mem_of_dirs (by simpa using hd))

theorem Inv.fds_iff (h : Inv env s locked r) (d : Dir) (k : ℤ) :
    s.fds d k = true ↔ ∃ x, r.dirs x d = true ∧ env.sock x = k := by
  rw [h.fds]
  exact h.bak d k

variable {link : Link}

section
variable (h : Inv env s locked r)
include h

theorem Inv.fds_of_new (hnew : ∀ x ∈ r.order, env.sock x ≠ env.sock link)
    (d : Dir) : s.fds d (env.sock link) = false := by
  by_contra hset
  obtain ⟨x, hx, hsock⟩ := (h.fds_iff d _).1 (by simpa using hset)
  exact hnew x (h.mem_of_dirs hx) hsock

theorem Inv.fds_of_mem (hlink : link ∈ r.order) (d : Dir) : s.fds d (env.sock link) = r.dirs link d := by
  rw [Bool.eq_iff_iff, h.fds_iff]
  constructor
  · rintro ⟨x, hx, hsock⟩
    rwa [← h.inj x (h.mem_of_dirs hx) link hlink hsock]
  · intro hd
    exact ⟨link, hd, rfl⟩

theorem Inv.left_locked (b : Bool) : Inv env { s with locked := s.locked || b } (locked || b) r := by
  have hlocked : (s.locked || b) = (locked || b) := by rw [h.locked]
  exact { h with locked := hlocked }

theorem Inv.blocks_eq (nolock : Bool) : blocks env nolock s = (env.mx && !nolock && locked) := by
  rw [blocks, h.locked]

end

theorem careful_add_new (hnew : ∀ x ∈ r.order, env.sock x ≠ env.sock link) :
    (PollCall.add link dir nolock).Careful env r ↔ dir.any = true ∧ 0 ≤ env.sock link ∧ env.sock link < fdSetSize := by
  have hfind : (r.order.find? fun x => env.sock x = env.sock link) = none := by
    simpa using hnew
  simp only [PollCall.Careful, hfind]

theorem Inv.careful_add_old (h : Inv env s locked r)
    (hx : x ∈ r.order) (hsock : env.sock x = env.sock link) : (PollCall.add link dir nolock).Careful env r ↔
      dir.any = false ∨ x = link ∧ (dir .ex = true → r.dirs link .ex = true) := by
  have hfind : (r.order.find? fun x => env.sock x = env.sock link) = some x := by
    cases hfind : r.order.find? fun x => env.sock x = env.sock link with
    | none => exact absurd hsock (by simpa using find?_eq_none.1 hfind x hx)
    | some y =>
      have hy := find?_some hfind
      rw [h.inj y (mem_of_find?_eq_some hfind) x hx ((of_decide_eq_true hy).trans hsock.symm)]
  simp only [PollCall.Careful, hfind]

section Sets
variable {dir a b : Dirs} {found : Bool} {k : ℤ} {d : Dir}

def PollList.setDirs (dir : Dirs) (k : ℤ) (s : PollList Link) : PollList Link :=
  { s with
    nfds := fun d => if dir d && !s.fds d k then s.nfds d + 1 else s.nfds d
    fds := fun d j => s.fds d j || (dir d && decide (j = k))
    bak := fun d j => s.bak d j || (dir d && decide (j = k)) }

theorem setDirs_of_none (h : ∀ d, dir d = false) : s.setDirs dir k = s := by
  simp [PollList.setDirs, h]

theorem setDirs_of_set (hfds : s.fds = s.bak) (h : ∀ d, dir d = true → s.fds d k = true) : s.setDirs dir k = s := by
  have hor : ∀ d j, (s.fds d j || (dir d && decide (j = k))) = s.fds d j := by
    intro d j
    by_cases hd : dir d = true
    · by_cases hj : j = k
      · subst hj
        simp [h d hd]
      · simp [hj]
    · simp [hd]
  have hn : ∀ d, (dir d && !s.fds d k) = false := by
    intro d
    by_cases hd : dir d = true
    · simp [h d hd]
    · simp [hd]
  have hor' : ∀ d j, (s.bak d j || (dir d && decide (j = k))) = s.bak d j := by
    rw [← hfds]
    exact hor
  simp [PollList.setDirs, hor, hor', hn]

theorem setDirs_setDirs (h : ∀ d, a d = true → b d = false) :
    (s.setDirs a k).setDirs b k = s.setDirs (fun d => a d || b d) k := by
  unfold PollList.setDirs
  congr 1
  · funext d
    cases ha : a d with
    | true => simp [ha, h d ha]
    | false => simp [ha]
  all_goals
    funext d j
    simp only [Bool.or_assoc, Bool.and_or_distrib_right]

theorem setFd_eq (hd : s.fds d k = false) : s.setFd d k =
      if 0 ≤ k ∧ k < fdSetSize then some (s.setDirs (fun e => decide (e = d)) k) else none := by
  have hset : ∀ f : Dir → ℤ → Bool, Function.update f d (Function.update (f d) k true) =
      fun e j => f e j || (decide (e = d) && decide (j = k)) := by
    intro f
    funext e j
    by_cases he : e = d
    · subst he
      by_cases hj : j = k <;> simp [hj]
    · simp [he]
  have hn : Function.update s.nfds d (s.nfds d + 1) =
      fun e => if decide (e = d) && !s.fds e k then s.nfds e + 1 else s.nfds e := by
    funext e
    by_cases he : e = d
    · subst he
      simp [hd]
    · simp [he]
  rw [PollList.setFd, PollList.setDirs, hset, hset, hn]

section
variable (hfds : s.fds = s.bak) (hold : found = true → 0 ≤ k ∧ k < fdSetSize)
include hfds hold

theorem addDir_eq_some_iff (hnew : found = false → s.fds d k = false) :
    addDir dir found k d s = some s' ↔ (dir d = true → 0 ≤ k ∧ k < fdSetSize) ∧
      s' = s.setDirs (fun e => dir e && decide (e = d)) k := by
  have honly : (fun e => dir e && decide (e = d)) = fun e => dir d && decide (e = d) := by
    funext e
    by_cases he : e = d <;> simp [he]
  rw [honly, addDir]
  cases hd : dir d with
  | false =>
    rw [if_pos rfl, setDirs_of_none (by simp)]
    simp [eq_comm]
  | true =>
    rw [if_neg (by decide)]
    cases hset : s.fds d k with
    | true =>
      have hfound : found = true := by
        by_contra hne
        simp [hset] at hnew
        exact hne hnew
      rw [if_pos hfound, if_pos rfl, setDirs_of_set hfds]
      · simp [hold hfound, eq_comm]
      · intro e he
        rw [of_decide_eq_true he, hset]
    | false =>
      simp only [Bool.false_eq_true, if_false, ite_self, setFd_eq hset, Bool.true_and, true_imp_iff]
      split_ifs with hk <;> simp [hk, eq_comm]

theorem addEx_eq_some_iff (hnew : found = false → s.fds .ex k = false) :
    addEx dir found k s = some s' ↔ (found = true → dir .ex = true → s.fds .ex k = true) ∧
      (dir .ex = true → 0 ≤ k ∧ k < fdSetSize) ∧ s' = s.setDirs (fun e => dir e && decide (e = .ex)) k := by
  rw [← addDir_eq_some_iff hfds hold hnew, addEx, addDir]
  split_ifs with hdir hfound hset
  · simp [hdir]
  · simp [hset]
  · simp [hfound, hset, hdir]
  · simp [hfound]

end

theorem fds_setDirs (hd : dir d = false) : (s.setDirs dir k).fds d k = s.fds d k := by
  simp [PollList.setDirs, hd]

theorem setDirs_fds_eq_bak (hfds : s.fds = s.bak) : (s.setDirs dir k).fds = (s.setDirs dir k).bak := by
  simp only [PollList.setDirs, hfds]

theorem addDirs_eq (hfds : s.fds = s.bak) (hold : found = true → 0 ≤ k ∧ k < fdSetSize)
    (hnew : found = false → ∀ d, s.fds d k = false) :
    ((addDir dir found k .wr s).bind (addDir dir found k .rd)).bind (addEx dir found k) =
      if (dir.any = true → 0 ≤ k ∧ k < fdSetSize) ∧ (found = true → dir .ex = true → s.fds .ex k = true)
      then some (s.setDirs dir k) else none := by
  ext s'
  have hsets : ((s.setDirs (fun e => dir e && decide (e = .wr)) k).setDirs
      (fun e => dir e && decide (e = .rd)) k).setDirs (fun e => dir e && decide (e = .ex)) k =
      s.setDirs dir k := by
    rw [setDirs_setDirs, setDirs_setDirs]
    · congr 1
      funext d
      cases d <;> simp
    all_goals
      intro d hd
      cases d <;> simp_all
  have hfdsWr := @setDirs_fds_eq_bak _ s (fun e => dir e && decide (e = .wr)) k hfds
  have hrd : ∀ s2, _ ↔ _ := fun s2 => @addDir_eq_some_iff _ _ s2 dir found k .rd hfdsWr hold fun hfound => by
    rw [fds_setDirs (by simp)]
    exact hnew hfound .rd
  have hex := @addEx_eq_some_iff _ _ s' dir found k
    (@setDirs_fds_eq_bak _ _ (fun e => dir e && decide (e = .rd)) k hfdsWr) hold fun hfound => by
      rw [fds_setDirs (by simp), fds_setDirs (by simp)]
      exact hnew hfound .ex
  rw [fds_setDirs (by simp), fds_setDirs (by simp), hsets] at hex
  simp only [ite_none_right_eq_some, bind_eq_some_iff, addDir_eq_some_iff hfds hold fun h => hnew h .wr, some.injEq]
  constructor
  · rintro ⟨_, ⟨_, ⟨kwr, rfl⟩, h2⟩, h3⟩
    obtain ⟨krd, rfl⟩ := (hrd _).1 h2
    obtain ⟨hset, kex, heq⟩ := hex.1 h3
    refine ⟨⟨fun hany => ?_, hset⟩, heq.symm⟩
    obtain ⟨d, hd⟩ := Dirs.any_eq_true_iff.1 hany
    cases d with
    | wr => exact kwr hd
    | rd => exact krd hd
    | ex => exact kex hd
  · rintro ⟨⟨hk, hset⟩, heq⟩
    have hd : ∀ d, dir d = true → 0 ≤ k ∧ k < fdSetSize := fun d hd => hk (Dirs.any_eq_true_iff.2 ⟨d, hd⟩)
    exact ⟨_, ⟨_, ⟨hd .wr, rfl⟩, (hrd _).2 ⟨hd .rd, rfl⟩⟩, hex.2 ⟨hset, hd .ex, heq.symm⟩⟩

end Sets

variable [DecidableEq Link]

section Add
variable {link : Link} {dir : Dirs} {nolock : Bool}

theorem chain_getLast {items : List Link} (hnodup : items.Nodup) (hne : items ≠ []) (link : Link) :
    chain items.getLast? link items = some (items ++ [link]) := by
  rcases eq_nil_or_concat' items with rfl | ⟨init, l, rfl⟩
  · exact absurd rfl hne
  · have hl : ∀ x ∈ init, decide (x ≠ l) = true := by
      intro x hx
      rw [decide_eq_true_eq]
      rintro rfl
      exact (nodup_append.1 hnodup).2.2 x hx x mem_cons_self rfl
    rw [getLast?_concat, chain, if_pos (by simp), takeWhile_append_of_pos hl]
    simp

/-- What `ilink_poll_add` leaves of a state for a socket that is in the list. -/
def PollList.updated (env : Env Link) (link : Link) (dir : Dirs) (s : PollList Link) : PollList Link :=
  { s.setDirs dir (env.sock link) with
    pollflags := Function.update s.pollflags link fun d => s.pollflags link d || dir d }

def PollList.appended (env : Env Link) (link : Link) (dir : Dirs) (s : PollList Link) : PollList Link :=
  { s.updated env link dir with
    items := s.items ++ [link]
    last := some link
    fdmax := if s.fdmax < env.sock link then env.sock link else s.fdmax }

section
variable (h : Inv env s locked r) (hblocks : blocks env nolock s = false)
include h hblocks

theorem pollAdd_new (hnew : ∀ x ∈ r.order, env.sock x ≠ env.sock link) : pollAdd env link dir nolock s =
      if dir.any = true → 0 ≤ env.sock link ∧ env.sock link < fdSetSize then some (s.appended env link dir)
      else none := by
  have hfound : (s.items.any fun ent => env.sock ent = env.sock link) = false := by
    rw [List.any_eq_false, h.items]
    simpa using hnew
  have hsets := @addDirs_eq _ s dir false (env.sock link) h.fds nofun fun _ => h.fds_of_new hnew
  unfold pollAdd
  simp only [hblocks, Bool.false_eq_true, if_false, hfound, hsets, false_imp_iff, and_true]
  split_ifs with hk
  · have hit : (s.setDirs dir (env.sock link)).items = s.items := rfl
    have hlast : (s.setDirs dir (env.sock link)).last = s.last := rfl
    by_cases hitems : s.items = []
    · simp only [PollList.appended, hit, hitems, if_true]
      rfl
    · have hchain : chain s.last link s.items = some (s.items ++ [link]) := by
        rw [h.last (h.items ▸ hitems), ← h.items]
        exact chain_getLast (h.items ▸ h.nodup) hitems link
      simp only [hit, hlast, if_neg hitems, hchain]
      rfl
  · rfl

theorem pollAdd_old (hx : x ∈ r.order) (hsock : env.sock x = env.sock link) : pollAdd env link dir nolock s =
      if dir .ex = true → s.fds .ex (env.sock link) = true then some (s.updated env link dir) else none := by
  have hfound : (s.items.any fun ent => env.sock ent = env.sock link) = true := by
    rw [List.any_eq_true]
    exact ⟨x, h.items ▸ hx, decide_eq_true hsock⟩
  have hk : 0 ≤ env.sock link ∧ env.sock link < fdSetSize := hsock ▸ h.range x hx
  have hsets := @addDirs_eq _ s dir true (env.sock link) h.fds (fun _ => hk) nofun
  unfold pollAdd
  simp only [hblocks, Bool.false_eq_true, if_false, hfound, hsets, true_imp_iff, hk, implies_true,
    and_self, true_and, if_true]
  split_ifs
  · rfl
  · rfl

end

abbrev addTo (dirs : Link → Dirs) (link : Link) (dir : Dirs) : Link → Dirs :=
  Function.update dirs link fun d => dirs link d || dir d

variable {dirs : Link → Dirs}

theorem countP_update_of_not_mem {l : List Link} (hl : link ∉ l) (d : Dir) :
    (l.countP fun x => addTo dirs link dir x d) = l.countP fun x => dirs x d := by
  apply countP_congr
  intro x hx
  rw [addTo, Function.update_of_ne (ne_of_mem_of_not_mem hx hl)]

theorem countP_update {order : List Link} (hnodup : order.Nodup) (hlink : link ∈ order) (d : Dir) :
    (order.countP fun x => addTo dirs link dir x d) =
      (order.countP fun x => dirs x d) + if dir d && !dirs link d then 1 else 0 := by
  obtain ⟨pre, post, rfl⟩ := append_of_mem hlink
  rw [nodup_append] at hnodup
  have hpre : link ∉ pre := fun hmem => hnodup.2.2 link hmem link mem_cons_self rfl
  have hpost : link ∉ post := (nodup_cons.1 hnodup.2.1).1
  rw [countP_append, countP_append, countP_cons, countP_cons,
    countP_update_of_not_mem hpre, countP_update_of_not_mem hpost, addTo, Function.update_self]
  cases dirs link d <;> cases dir d <;> simp [Nat.add_assoc]

theorem update_dirs_iff : addTo dirs link dir x d = true ↔ dirs x d = true ∨ x = link ∧ dir d = true := by
  by_cases hx : x = link
  · subst hx
    simp
  · simp [hx]

theorem update_any_iff : (addTo dirs link dir x).any = true ↔ (dirs x).any = true ∨ x = link ∧ dir.any = true := by
  simp only [Dirs.any_eq_true_iff, update_dirs_iff]
  constructor
  · rintro ⟨d, hd | ⟨hx, hd⟩⟩
    · exact .inl ⟨d, hd⟩
    · exact .inr ⟨hx, d, hd⟩
  · rintro (⟨d, hd⟩ | ⟨hx, d, hd⟩)
    · exact ⟨d, .inl hd⟩
    · exact ⟨d, .inr ⟨hx, hd⟩⟩

theorem Inv.bak_setDirs (h : Inv env s locked r) (d : Dir) (k : ℤ) : (s.setDirs dir (env.sock link)).bak d k = true ↔
      ∃ x, addTo r.dirs link dir x d = true ∧ env.sock x = k := by
  have hbak : (s.setDirs dir (env.sock link)).bak d k = true ↔ s.bak d k = true ∨ dir d = true ∧ k = env.sock link := by
    simp [PollList.setDirs]
  rw [hbak, h.bak]
  constructor
  · rintro (⟨x, hx, hk⟩ | ⟨hd, rfl⟩)
    · exact ⟨x, update_dirs_iff.2 (.inl hx), hk⟩
    · exact ⟨link, update_dirs_iff.2 (.inr ⟨rfl, hd⟩), rfl⟩
  · rintro ⟨x, hx, rfl⟩
    rcases update_dirs_iff.1 hx with hx | ⟨rfl, hd⟩
    · exact .inl ⟨x, hx, rfl⟩
    · exact .inr ⟨hd, rfl⟩

theorem Inv.flags_updated (h : Inv env s locked r) : (s.updated env link dir).pollflags = addTo r.dirs link dir := by
  simp only [PollList.updated, h.flags]

theorem updated_nothing (hdir : dir.any = false) : s.updated env link dir = s := by
  have hd := Dirs.any_eq_false_iff.1 hdir
  rw [PollList.updated, setDirs_of_none hd]
  simp [hd]

theorem step_add_nothing (hdir : dir.any = false) (nolock : Bool) : r.step env (.add link dir nolock) = r := by
  have hd := Dirs.any_eq_false_iff.1 hdir
  rw [Registered.step, if_pos (.inr hdir)]
  simp [hd]

theorem Inv.updated (h : Inv env s locked r) (hlink : link ∈ r.order) (nolock : Bool) :
    Inv env (s.updated env link dir) locked (r.step env (.add link dir nolock)) := by
  have hstep : r.step env (.add link dir nolock) = ⟨r.order, addTo r.dirs link dir⟩ := by
    rw [Registered.step, if_pos (.inl hlink)]
  rw [hstep]
  refine { h with
    mem := fun x => ?_
    flags := h.flags_updated
    nfds := fun d => ?_
    bak := h.bak_setDirs
    fds := setDirs_fds_eq_bak h.fds }
  · rw [update_any_iff, h.mem]
    constructor
    · exact .inl
    · rintro (hx | ⟨rfl, -⟩)
      · exact hx
      · exact (h.mem x).1 hlink
  · rw [countP_update h.nodup hlink]
    have hnfds : (s.updated env link dir).nfds d =
        if dir d && !s.fds d (env.sock link) then s.nfds d + 1 else s.nfds d := rfl
    rw [hnfds, h.fds_of_mem hlink, h.nfds]
    split_ifs <;> simp

theorem Inv.appended (h : Inv env s locked r) (hnew : ∀ x ∈ r.order, env.sock x ≠ env.sock link)
    (hk : 0 ≤ env.sock link ∧ env.sock link < fdSetSize) (hdir : dir.any = true) (nolock : Bool) :
    Inv env (s.appended env link dir) locked (r.step env (.add link dir nolock)) := by
  have hlink : link ∉ r.order := fun hmem => hnew link hmem rfl
  have hstep : r.step env (.add link dir nolock) = ⟨r.order ++ [link], addTo r.dirs link dir⟩ := by
    rw [Registered.step, if_neg]
    rintro (hmem | hany)
    · exact hlink hmem
    · rw [hdir] at hany
      cases hany
  have hfdmax : s.fdmax ≤ (s.appended env link dir).fdmax ∧ env.sock link ≤ (s.appended env link dir).fdmax := by
    unfold PollList.appended
    simp only
    split_ifs <;> omega
  have hforall : ∀ {p : Link → Prop}, (∀ x ∈ r.order, p x) → p link → ∀ x ∈ r.order ++ [link], p x := by
    intro p hall hp x hx
    rcases mem_append.1 hx with hx | hx
    · exact hall x hx
    · rw [mem_singleton.1 hx]
      exact hp
  rw [hstep]
  constructor
  · exact congrArg (· ++ [link]) h.items
  · simp only [nodup_append, h.nodup, nodup_singleton, mem_singleton, true_and]
    rintro x hx _ rfl rfl
    exact hlink hx
  · intro x
    rw [update_any_iff, ← h.mem, mem_append, mem_singleton]
    simp [hdir]
  · exact h.flags_updated
  · intro d
    have hcount : ((r.order ++ [link]).countP fun x =>
        addTo r.dirs link dir x d) =
        (r.order.countP fun x => r.dirs x d) + if dir d then 1 else 0 := by
      rw [countP_append, countP_update_of_not_mem hlink, countP_singleton,
        addTo, Function.update_self, h.dirs_of_not_mem hlink, Bool.false_or]
    have hnfds : (s.appended env link dir).nfds d =
        if dir d && !s.fds d (env.sock link) then s.nfds d + 1 else s.nfds d := rfl
    rw [hcount, hnfds, h.fds_of_new hnew, h.nfds]
    cases dir d <;> simp
  · exact h.bak_setDirs
  · exact setDirs_fds_eq_bak h.fds
  · exact hforall (fun x hx => Int.le_trans (h.fdmax x hx) hfdmax.1) hfdmax.2
  · intro _
    exact getLast?_concat.symm
  · apply hforall
    · intro x hx
      exact hforall (h.inj x hx) fun heq => absurd heq (hnew x hx)
    · exact hforall (fun y hy heq => absurd heq.symm (hnew y hy)) fun _ => rfl
  · exact hforall h.range hk
  · exact h.locked

end Add
end Prj.Infolink
