import Prj.Jlib.JournalRec

/-!
The check and the recovery of a journal (`jlib/src/jdb_jrnl.c`), on its records as they are loaded.

What an operation does to the database is a parameter.
-/
namespace Prj.Jlib.Journal
open List

def cmdEmpty : UInt8 := 0x00
def cmdEnd : UInt8 := 0x80
def cmdMask : UInt8 := 0x3f

inductive Err
  | read
  | exists
  | type
  | inv
  /-- What an operation returns. -/
  | db (n : ℕ)
  deriving DecidableEq, Repr

/-- The commands that can be run; the ones for whole rows and columns are not. -/
inductive Cmd
  | createTable
  | rmTable
  | addTypedef
  | rmTypedef
  | assignColtype
  | rmColtype
  | createCell
  | rmCell
  | updateCell
  deriving DecidableEq, Repr

structure Entry where
  chid : UInt64
  cmd : UInt8
  args : List (List UInt8)
  deriving DecidableEq

structure Op where
  chid : UInt64
  cmd : Cmd
  args : List (List UInt8)
  deriving DecidableEq

structure Journaled where
  /-- `h->hdr.chid` -/
  chid : UInt64
  /-- the flag `JDB_O_JRNL` -/
  jrnl : Bool

/-- A record as it is loaded. -/
def Rec.entry (r : Rec) : Option Entry := (getArgs r).map fun args => ⟨r.hdr.chid, r.hdr.cmd, args⟩

/-- A command that is read again is the entry that a recovery starts from. -/
theorem Rereads.entry {ks : ℕ → UInt8} {old : Hdr} {c : Command} (h : Rereads ks old c) :
    ∃ hdr argbuf r, assmRec c old = some (hdr, argbuf) ∧ getRec ks (reg ks hdr argbuf) = some r ∧
      r.entry = some ⟨c.chid, c.cmd, c.args⟩ := by
  obtain ⟨hdr, argbuf, r, hassm, hget, hcmd, -, hchid, hargs⟩ := h
  exact ⟨hdr, argbuf, r, hassm, hget, by rw [Rec.entry, hargs, hcmd, hchid]; rfl⟩

def Entry.blank (r : Entry) : Entry := { r with cmd := cmdEmpty }

section Check
/-- The body of the two loops of `_jdb_jrnl_check_chid_bounds`. -/
def matchEntries (recs : List Entry) (i j : ℕ) : List Entry :=
  match recs[i]?, recs[j]? with
  | some b, some e =>
    if (b.cmd ≠ cmdEmpty ∧ e.cmd ≠ cmdEmpty) ∧ e.chid = b.chid then
      (recs.modify i Entry.blank).modify j Entry.blank
    else recs
  | _, _ => recs

def matchWith (n : ℕ) (recs : List Entry) (i : ℕ) : List Entry :=
  (List.range n).foldl (fun recs j => matchEntries recs i j) recs

def matchAll (recs : List Entry) : List Entry :=
  (List.range recs.length).foldl (matchWith recs.length) recs

def checkChidBounds (recs : List Entry) : Except Err Unit :=
  if ∃ r ∈ matchAll recs, r.cmd ≠ cmdEmpty then .error .exists else .ok ()

end Check

section Parse
/-- The shape of the functions `_jdb_jrnl_parse_*`: the number of arguments and the sizes of some of them. -/
def parseArgs (sizes : List (Option ℕ)) (args : List (List UInt8)) : Except Err Unit :=
  if args.length = sizes.length ∧ ∀ p ∈ sizes.zip args, ∀ n ∈ p.1, p.2.length = n then .ok ()
  else .error .inv

def parseCreateTable := parseArgs [none, some 4, some 4, some 1, some 2]
def parseRmTable := parseArgs [none]
def parseAddTypedef := parseArgs [none, some 1, some 1, some 4, some 1]
def parseRmTypedef := parseArgs [none, some 1]
def parseAssignColtype := parseArgs [none, some 1, some 4]
def parseRmColtype := parseArgs [none, some 4]
def parseCreateCell := parseArgs [none, some 4, some 4, none, some 4, some 1]
def parseRmCell := parseArgs [none, some 4, some 4]
def parseUpdateCell := parseArgs [none, some 4, some 4, none, some 4]

def Cmd.parse : Cmd → List (List UInt8) → Except Err Unit
  | .createTable => parseCreateTable
  | .rmTable => parseRmTable
  | .addTypedef => parseAddTypedef
  | .rmTypedef => parseRmTypedef
  | .assignColtype => parseAssignColtype
  | .rmColtype => parseRmColtype
  | .createCell => parseCreateCell
  | .rmCell => parseRmCell
  | .updateCell => parseUpdateCell

def Cmd.ofByte (b : UInt8) : Option Cmd :=
  match b with
  | 0x01 => some .createTable
  | 0x02 => some .rmTable
  | 0x03 => some .addTypedef
  | 0x04 => some .rmTypedef
  | 0x05 => some .assignColtype
  | 0x06 => some .rmColtype
  | 0x07 => some .createCell
  | 0x08 => some .rmCell
  | 0x09 => some .updateCell
  | _ => none

/-- The operation that is run for a record. The bit for its end is masked out. -/
def Entry.op (r : Entry) : Except Err Op :=
  match Cmd.ofByte (r.cmd &&& cmdMask) with
  | none => .error .type
  | some cmd => (cmd.parse r.args).map fun _ => ⟨r.chid, cmd, r.args⟩

end Parse

structure Run (D : Type) where
  ret : Except Err Unit
  trace : List Op
  db : D

section Recover
variable {D : Type} (exec : D → Op → Except Err Unit × D)

/-- Blanks the entries of `_jdb_jrnl_rm_expired_chid`. -/
def rmExpired (chid : UInt64) (recs : List Entry) : List Entry :=
  recs.map fun r => if r.chid ≤ chid then r.blank else r

def runRecCmd (db : D) (r : Entry) : Run D :=
  match r.op with
  | .error e => ⟨.error e, [], db⟩
  | .ok op => ⟨(exec db op).1, [op], (exec db op).2⟩

def runRecCmdList (db : D) : List Entry → Run D
  | [] => ⟨.ok (), [], db⟩
  | r :: rs =>
    let first := runRecCmd exec db r
    match first.ret with
    | .error e => ⟨.error e, first.trace, first.db⟩
    | .ok _ =>
      let rest := runRecCmdList first.db rs
      ⟨rest.ret, first.trace ++ rest.trace, rest.db⟩

/-- `_jdb_jrnl_trunc`: the return value and the records of the file. The file is emptied as it is opened, so
that the key at its start cannot be read. Without the flag no file is opened. -/
def trunc (h : Journaled) (recs : List Entry) : Except Err Unit × List Entry :=
  if h.jrnl then (.error .read, []) else (.ok (), recs)

def recover (h : Journaled) (db : D) (recs : List Entry) : Run D × List Entry :=
  let live := rmExpired h.chid recs
  if ∀ r ∈ live, r.cmd = cmdEmpty then (⟨.ok (), [], db⟩, recs)
  else
    let run := runRecCmdList exec db live
    match run.ret with
    | .error _ => (run, recs)
    | .ok _ => ({ run with ret := (trunc h recs).1 }, (trunc h recs).2)

end Recover

section Specification
variable {D : Type} (exec : D → Op → Except Err Unit × D)

def Entry.isEnd (r : Entry) : Bool := r.cmd &&& cmdEnd ≠ 0

/-- A begin record for each operation, with change ids of their own, and end records for some of them. -/
def Formed (recs : List Entry) : Prop :=
  ((recs.filter fun r => !r.isEnd).map Entry.chid).Nodup ∧
    ∀ e ∈ recs, e.isEnd → ∃ b ∈ recs, !b.isEnd ∧ b.chid = e.chid

def Finished (recs : List Entry) : Prop := ∀ b ∈ recs, !b.isEnd → ∃ e ∈ recs, e.isEnd ∧ e.chid = b.chid

def ChecksBounds (recs : List Entry) : Prop := checkChidBounds recs = .ok () ↔ Finished recs

def Entry.Pending (h : Journaled) (r : Entry) : Prop := !r.isEnd ∧ h.chid < r.chid

instance (h : Journaled) : DecidablePred (Entry.Pending h) :=
  fun r => inferInstanceAs (Decidable (!r.isEnd ∧ h.chid < r.chid))

/-- Exactly the pending operations are run, in their order, and no record is left. -/
def Recovers (h : Journaled) (db : D) (recs : List Entry) : Prop :=
  (recover exec h db recs).1.trace.map Except.ok = (recs.filter (Entry.Pending h ·)).map Entry.op ∧
    (recover exec h db recs).2 = []

/-- The operation of every record succeeds after the ones before it. -/
def Succeeds : D → List Entry → Prop
  | _, [] => True
  | db, r :: rs => ∃ op db', r.op = .ok op ∧ exec db op = (.ok (), db') ∧ Succeeds db' rs

end Specification

section Check
variable {recs : List Entry} {i j k n : ℕ}

theorem foldl_of_mem {α β : Type*} {f : β → α → β} {P : β → Prop} {l : List α} {a : α}
    (hkeep : ∀ b a, P b → P (f b a)) (hstep : ∀ b, P (f b a)) (ha : a ∈ l) (b : β) : P (l.foldl f b) := by
  obtain ⟨l1, l2, rfl⟩ := append_of_mem ha
  rw [foldl_append]
  exact List.foldlRecOn l2 f (hstep _) fun b hb a _ => hkeep b a hb

def BlankAt (k : ℕ) (recs : List Entry) : Prop := ∀ r ∈ recs[k]?, r.cmd = cmdEmpty

theorem blankAt_modify (k : ℕ) (recs : List Entry) : BlankAt k (recs.modify k Entry.blank) := by
  intro r hr
  rw [getElem?_modify_eq] at hr
  obtain ⟨r', -, rfl⟩ := Option.map_eq_some_iff.1 hr
  rfl

theorem BlankAt.modify (h : BlankAt k recs) : BlankAt k (recs.modify i Entry.blank) := by
  by_cases hik : i = k
  · rw [hik]
    exact blankAt_modify k recs
  · intro r hr
    rw [getElem?_modify_ne _ _ hik] at hr
    exact h r hr

theorem length_matchEntries (recs : List Entry) (i j : ℕ) : (matchEntries recs i j).length = recs.length := by
  unfold matchEntries
  split
  · split_ifs
    · rw [length_modify, length_modify]
    · rfl
  · rfl

theorem BlankAt.matchEntries (h : BlankAt k recs) (i j : ℕ) : BlankAt k (matchEntries recs i j) := by
  unfold Journal.matchEntries
  split
  · split_ifs
    · exact h.modify.modify
    · exact h
  · exact h

theorem blankAt_matchEntries_self (recs : List Entry) (i : ℕ) : BlankAt i (matchEntries recs i i) := by
  unfold matchEntries
  cases hr : recs[i]? with
  | none =>
    intro r hr'
    rw [hr] at hr'
    cases hr'
  | some b =>
    by_cases hb : b.cmd = cmdEmpty
    · simp only [hb, ne_eq, not_true_eq_false, and_self, false_and, if_false]
      intro r hr'
      rw [hr] at hr'
      rw [← Option.some.inj hr', hb]
    · simp only [ne_eq, hb, not_false_eq_true, and_self, if_true]
      exact blankAt_modify i _

theorem BlankAt.matchWith (h : BlankAt k recs) (n i : ℕ) : BlankAt k (matchWith n recs i) :=
  List.foldlRecOn _ _ h fun _ hb j _ => hb.matchEntries i j

theorem blankAt_matchWith (hi : i < n) (recs : List Entry) : BlankAt i (matchWith n recs i) :=
  foldl_of_mem (fun _ j hb => hb.matchEntries i j) (fun b => blankAt_matchEntries_self b i) (mem_range.2 hi) recs

theorem length_matchWith (n : ℕ) (recs : List Entry) (i : ℕ) : (matchWith n recs i).length = recs.length :=
  List.foldlRecOn (motive := fun b => b.length = recs.length) _ _ rfl
    fun b hb j _ => (length_matchEntries b i j).trans hb

theorem length_matchAll (recs : List Entry) : (matchAll recs).length = recs.length :=
  List.foldlRecOn (motive := fun b => b.length = recs.length) _ _ rfl
    fun b hb i _ => (length_matchWith _ b i).trans hb

theorem blank_of_mem_matchAll {r : Entry} (hr : r ∈ matchAll recs) : r.cmd = cmdEmpty := by
  obtain ⟨k, hk, rfl⟩ := getElem_of_mem hr
  have hlt : k < recs.length := length_matchAll recs ▸ hk
  have hblank : BlankAt k (matchAll recs) :=
    foldl_of_mem (fun _ i hb => hb.matchWith _ i) (blankAt_matchWith hlt) (mem_range.2 hlt) recs
  exact hblank _ (getElem?_eq_getElem hk)

end Check

section Recover
variable {D : Type} {exec : D → Op → Except Err Unit × D} {h : Journaled} {db db' : D} {r : Entry} {recs : List Entry}
  {op : Op}

theorem ne_empty_of_op (hop : r.op = .ok op) : r.cmd ≠ cmdEmpty := by
  intro hempty
  have hmask : Cmd.ofByte (cmdEmpty &&& cmdMask) = none := rfl
  simp only [Entry.op, hempty, hmask] at hop
  cases hop

theorem runRecCmdList_cons_ok (hop : r.op = .ok op) (hexec : exec db op = (.ok (), db')) :
    runRecCmdList exec db (r :: recs) =
      { runRecCmdList exec db' recs with trace := op :: (runRecCmdList exec db' recs).trace } := by
  simp only [runRecCmdList, runRecCmd, hop, hexec, singleton_append]

theorem ret_runRecCmdList_iff : (runRecCmdList exec db recs).ret = .ok () ↔ Succeeds exec db recs := by
  induction recs generalizing db with
  | nil => exact iff_of_true rfl trivial
  | cons r rs ih =>
    constructor
    · intro hret
      cases hop : r.op with
      | error e =>
        simp only [runRecCmdList, runRecCmd, hop] at hret
        cases hret
      | ok op =>
        obtain ⟨⟨ret, db'⟩, hexec⟩ : ∃ out, exec db op = out := ⟨_, rfl⟩
        cases ret with
        | error e =>
          simp only [runRecCmdList, runRecCmd, hop, hexec] at hret
          cases hret
        | ok u =>
          rw [runRecCmdList_cons_ok hop hexec] at hret
          exact ⟨op, db', hop, hexec, ih.1 hret⟩
    · rintro ⟨op, db', hop, hexec, hrest⟩
      rw [runRecCmdList_cons_ok hop hexec]
      exact ih.2 hrest

theorem Succeeds.trace (hrun : Succeeds exec db recs) :
    (runRecCmdList exec db recs).trace.map Except.ok = recs.map Entry.op := by
  induction recs generalizing db with
  | nil => rfl
  | cons r rs ih =>
    obtain ⟨op, db', hop, hexec, hrest⟩ := hrun
    rw [runRecCmdList_cons_ok hop hexec, map_cons, map_cons, ih hrest, hop]

theorem rmExpired_of_pending (hlive : ∀ r ∈ recs, r.Pending h) : rmExpired h.chid recs = recs := by
  refine (map_congr_left ?_).trans (map_id recs)
  intro r hr
  exact if_neg (UInt64.not_le.2 (hlive r hr).2)

theorem Succeeds.not_forall_empty (hrun : Succeeds exec db recs) (hne : recs ≠ []) :
    ¬ ∀ r ∈ recs, r.cmd = cmdEmpty := by
  cases recs with
  | nil => exact absurd rfl hne
  | cons r rs =>
    obtain ⟨op, db', hop, -, -⟩ := hrun
    intro hall
    exact ne_empty_of_op hop (hall r mem_cons_self)

theorem Recovers.of_pending (hjrnl : h.jrnl = true) (hlive : ∀ r ∈ recs, r.Pending h)
    (hrun : Succeeds exec db recs) : Recovers exec h db recs := by
  by_cases hne : recs = []
  · subst hne
    exact ⟨rfl, rfl⟩
  · have hret := ret_runRecCmdList_iff.2 hrun
    have hrecover : recover exec h db recs =
        ({ runRecCmdList exec db recs with ret := (trunc h recs).1 }, (trunc h recs).2) := by
      simp only [recover, rmExpired_of_pending hlive, if_neg (hrun.not_forall_empty hne), hret]
    unfold Recovers
    rw [hrecover, filter_eq_self.2 fun r hr => decide_eq_true (hlive r hr)]
    refine ⟨hrun.trace, ?_⟩
    simp only [trunc, hjrnl, if_true]

theorem succeeds_of_recover (hne : recs ≠ []) (hempty : (recover exec h db recs).2 = []) :
    h.jrnl = true ∧ Succeeds exec db (rmExpired h.chid recs) ∧
      (recover exec h db recs).1.trace = (runRecCmdList exec db (rmExpired h.chid recs)).trace := by
  unfold recover at hempty ⊢
  dsimp only at hempty ⊢
  split_ifs at hempty ⊢ with hall
  · exact absurd hempty hne
  · cases hret : (runRecCmdList exec db (rmExpired h.chid recs)).ret with
    | error e =>
      simp only [hret] at hempty
      exact absurd hempty hne
    | ok u =>
      simp only [hret] at hempty
      refine ⟨?_, ret_runRecCmdList_iff.1 hret, rfl⟩
      unfold trunc at hempty
      split_ifs at hempty with hjrnl
      · exact hjrnl
      · exact absurd hempty hne

theorem Recovers.pending (hrec : Recovers exec h db recs) (hne : recs ≠ []) :
    h.jrnl = true ∧ (∀ r ∈ recs, r.Pending h) ∧ Succeeds exec db recs := by
  obtain ⟨htrace, hempty⟩ := hrec
  obtain ⟨hjrnl, hrun, heq⟩ := succeeds_of_recover hne hempty
  rw [heq, hrun.trace] at htrace
  have hlen : (recs.filter (Entry.Pending h ·)).length = recs.length := by
    have hlens := congrArg List.length htrace
    rw [length_map, length_map, rmExpired, length_map] at hlens
    exact hlens.symm
  have hlive : ∀ r ∈ recs, r.Pending h := fun r hr =>
    of_decide_eq_true (length_filter_eq_length_iff.1 hlen r hr)
  rw [rmExpired_of_pending hlive] at hrun
  exact ⟨hjrnl, hlive, hrun⟩

/-- The check is right about a journal exactly if every operation was finished, as it finds fault with none.
The recovery does what it should exactly if there are no records, or only pending operations that all
succeed: the records of finished and expired operations are run as well. -/
theorem check_recover_iff (exec : D → Op → Except Err Unit × D) (h : Journaled) (db : D)
    (recs : List Entry) : (ChecksBounds recs ↔ Finished recs) ∧ (Recovers exec h db recs ↔
        recs = [] ∨ h.jrnl = true ∧ (∀ r ∈ recs, r.Pending h) ∧ Succeeds exec db recs) := by
  refine ⟨iff_true_left (if_neg fun ⟨r, hr, hne⟩ => hne (blank_of_mem_matchAll hr)), ?_⟩
  constructor
  · intro hrec
    by_cases hne : recs = []
    · exact .inl hne
    · exact .inr (hrec.pending hne)
  · rintro (rfl | ⟨hjrnl, hlive, hrun⟩)
    · exact ⟨rfl, rfl⟩
    · exact .of_pending hjrnl hlive hrun

end Recover

def rmBegin : Entry := ⟨5, 0x02, [[97, 0, 0, 0, 0, 0, 0, 0]]⟩

def rmEnd : Entry := { rmBegin with cmd := 0x82 }

/-- An operation that was not finished is not found, and one that was is run twice. -/
theorem not_checks_not_recovers : (Formed [rmBegin] ∧ ¬ ChecksBounds [rmBegin]) ∧ Formed [rmBegin, rmEnd] ∧
        ¬ Recovers (fun (_ : Unit) _ => (.ok (), ())) ⟨3, true⟩ () [rmBegin, rmEnd] := by
  refine ⟨⟨⟨by decide, by decide⟩, ?_⟩, ⟨by decide, by decide⟩, ?_⟩
  · intro hchecks
    obtain ⟨e, he, hend, -⟩ := hchecks.1 (by decide) rmBegin mem_cons_self (by decide)
    rw [mem_singleton.1 he] at hend
    exact absurd hend (by decide)
  · rintro ⟨htrace, -⟩
    exact absurd (congrArg List.length htrace) (by decide)

end Prj.Jlib.Journal
