import Mathlib.Algebra.Group.Nat.Defs
import Mathlib.Data.List.Nodup
import Prj.Base.Glob
import Prj.Lib13.Error

/-! The statements of `lib13/db13.c` on a table, the list of its rows in the order of a scan; a cell
is `none` for NULL. Statements are prepared and run by SQLite without errors of its own, and an
uninitialised `struct db_stmt` is not taken for a prepared one. -/
namespace Prj.Lib13
open Prj.Base List

theorem find?_of_nodup {α β : Type} [DecidableEq β] {f : α → β} {l : List α} {a : α}
    (h : (l.map f).Nodup) (ha : a ∈ l) : (l.find? fun x => f x = f a) = some a := by
  obtain ⟨b, hb⟩ : ∃ b, l.find? (fun x => f x = f a) = some b := by
    rw [← Option.isSome_iff_exists, find?_isSome]
    exact ⟨a, ha, decide_eq_true rfl⟩
  rw [hb, inj_on_of_nodup_map h (mem_of_find?_eq_some hb) ha (by simpa using find?_some hb)]

/-- The signs from `DB_LOGIC_AND` on. -/
inductive Comb
  | and_
  | or_
  | not_
  | xor_
  | openp
  | closep
deriving DecidableEq, Repr

/-- A `struct db_logic_s` with `DB_LOGIC_LIKE` or `DB_LOGIC_EQ` on a column, or with a sign and no
other field set. A number column is `INT` or `BIGINT` by its `width`. -/
inductive DbLogic (R : Type)
  | like (col : R → Option (List Char)) (sval : List Char)
  | eq (col : R → Option ℤ) (width : ℕ) (ival : ℤ)
  | comb (sign : Comb)

/-- A `LIKE` pattern; `fold` is how the comparison ignores case. -/
def likePattern (fold : Char → Char) (sval : List Char) : List (Glob Char) :=
  sval.map fun c => if c = '%' then .any else if c = '_' then .one else .char (fold c)

def DbLogic.holds {R : Type} (fold : Char → Char) (row : R) : DbLogic R → Bool
  | .like col sval =>
    match col row with
    | none => false
    | some text => decide (Glob.Matches (likePattern fold sval) (text.map fold))
  | .eq col width ival => col row = some (ival.bmod (2 ^ width))
  | .comb _ => false

/-- A clause that `db_collect` and `db_delete` refuse at this entry if it is the last one. -/
def DbLogic.unfinished {R : Type} : DbLogic R → Bool
  | .comb sign => sign ≠ .closep
  | _ => false

section Statements
variable {R : Type} (fold : Char → Char)

/-- The rows of `db_collect`. Clauses of several entries that are not refused are left out: no caller
has one, and the values of all entries are bound, those of signs included. -/
def dbCollect (nlogic : ℕ) (logic : List (DbLogic R)) (table : List R) : Option (Except E13 (List R)) :=
  if (logic.take nlogic).getLast?.any DbLogic.unfinished then some (.error .syntaxError)
  else
    match logic.take nlogic with
    | [] => some (.ok table)
    | [l] => some (.ok (table.filter fun row => l.holds fold row))
    | _ => none

/-- A column of two rows in ascending order; NULL is below every number. -/
def below : Option ℤ → Option ℤ → Bool
  | none, some _ => true
  | some a, some b => a < b
  | _, none => false

/-- The row of `db_collect` without a condition, in descending order and with the limit 1. -/
def dbTop (sortcol : R → Option ℤ) : List R → Option R
  | [] => none
  | row :: rows =>
    match dbTop sortcol rows with
    | none => some row
    | some top => if below (sortcol row) (sortcol top) then some top else some row

/-- The table after `db_delete`, which binds no values: the condition compares with NULL. -/
def dbDelete (nlogic : ℕ) (logic : List (DbLogic R)) (table : List R) : Option (Except E13 (List R)) :=
  if (logic.take nlogic).getLast?.any DbLogic.unfinished then some (.error .syntaxError)
  else
    match logic.take nlogic with
    | [] => some (.ok [])
    | [_] => some (.ok table)
    | _ => none

/-- `db_update`; `set` writes the bound values to a row. -/
def dbUpdate (iflogic : DbLogic R) (set : R → R) (table : List R) : Ret × List R :=
  if table.any fun row => iflogic.holds fold row then
    (.ok, table.map fun row => if iflogic.holds fold row then set row else row)
  else (.continue_, table)

/-- `db_insert`; `given` tells which of the columns that are not virtual have a value. After the last
column there is no comma, so that a list without it ends in one. -/
def dbInsert (given : List Bool) (row : R) (table : List R) : Except E13 (List R) :=
  if given.getLast? = some true then .ok (table ++ [row]) else .error .syse

/-- `*val[i]`: what is bound for a number is its first byte. -/
def lowByte (n : ℕ) : ℤ := n % 256

end Statements

section Lemmas
variable {R : Type} {fold : Char → Char} {l : DbLogic R} {set : R → R} {table : List R} {row : R}

theorem likePattern_self (fold : Char → Char) (s : List Char) : Glob.Matches (likePattern fold s) (s.map fold) := by
  induction s with
  | nil => rfl
  | cons c s ih =>
    rw [likePattern, map_cons]
    split_ifs
    · exact ⟨_, suffix_cons _ _, ih⟩
    · exact Glob.matches_one_cons.2 ih
    · exact Glob.matches_char_cons.2 ⟨rfl, ih⟩

theorem dbCollect_one (hl : l.unfinished = false) (rest : List (DbLogic R)) :
    dbCollect fold 1 (l :: rest) table = some (.ok (table.filter fun row => l.holds fold row)) := by
  simp [dbCollect, hl]

theorem dbCollect_two (a b : DbLogic R) {sign : Comb} (hsign : sign ≠ .closep) :
    dbCollect fold 2 [a, .comb sign, b] table = some (.error .syntaxError) := by
  simp [dbCollect, DbLogic.unfinished, hsign]

theorem dbUpdate_of_mem (hrow : row ∈ table) (hl : l.holds fold row = true) : dbUpdate fold l set table =
      (.ok, table.map fun row => if l.holds fold row then set row else row) := by
  rw [dbUpdate, if_pos (any_eq_true.2 ⟨row, hrow, hl⟩)]

end Lemmas
end Prj.Lib13
