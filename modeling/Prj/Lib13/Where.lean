import Prj.Base.Sql
import Prj.Lib13.Db

/-! `db_delete` of `lib13/db13.c` with a condition of any number of entries. Names of tables and
columns are plain words of SQL. -/
namespace Prj.Lib13.Where
open Prj.Base.Sql

/-- `enum db_logic` -/
inductive Sign
  | like
  | notLike
  | eq
  | ne
  | lt
  | le
  | gt
  | ge
  | between
  | and_
  | or_
  | not_
  | xor_
  | openp
  | closep
deriving DecidableEq, Repr

/-- `logic_sign` -/
def Sign.text : Sign → List Char
  | .like => "LIKE".toList
  | .notLike => "NOT LIKE".toList
  | .eq => "=".toList
  | .ne => "<>".toList
  | .lt => "<".toList
  | .le => "<=".toList
  | .gt => ">".toList
  | .ge => ">=".toList
  | .between => "BETWEEN".toList
  | .and_ => "AND".toList
  | .or_ => "OR".toList
  | .not_ => "NOT".toList
  | .xor_ => "XOR".toList
  | .openp => "(".toList
  | .closep => ")".toList

/-- What SQLite reads; there is no `XOR`. -/
def Sign.tok : Sign → Tok (List Char)
  | .like => .bin .like
  | .notLike => .bin .notLike
  | .eq => .bin (.cmp .eq)
  | .ne => .bin (.cmp .ne)
  | .lt => .bin (.cmp .lt)
  | .le => .bin (.cmp .le)
  | .gt => .bin (.cmp .gt)
  | .ge => .bin (.cmp .ge)
  | .between => .between
  | .and_ => .bin .and_
  | .or_ => .bin .or_
  | .not_ => .not_
  | .xor_ => .word
  | .openp => .openp
  | .closep => .closep

/-- `DB_LOGIC_AND` and what is above it. -/
def Sign.isComb : Sign → Bool
  | .and_ | .or_ | .not_ | .xor_ | .openp | .closep => true
  | _ => false

/-- A `struct db_logic_s`; `value` is `sval` or `ival`, by the type of the column. -/
structure Logic (V : Type) where
  colname : List Char
  logic : Sign
  value : Option V

section Model
variable {V : Type}

def Logic.text (l : Logic V) (i : ℕ) : List Char :=
  if l.logic.isComb then ' ' :: (l.logic.text ++ [' '])
  else ' ' :: (l.colname ++ ' ' :: (l.logic.text ++ " ?".toList ++ (Nat.repr i).toList))

def Logic.toks (l : Logic V) (i : ℕ) : List (Tok (List Char)) :=
  if l.logic.isComb then [l.logic.tok] else [.col l.colname, l.logic.tok, .param i]

/-- The text behind `WHERE` from entry `i` on. -/
def whereText : ℕ → List (Logic V) → List Char
  | _, [] => []
  | i, l :: logic => l.text i ++ whereText (i + 1) logic

def whereToks : ℕ → List (Logic V) → List (Tok (List Char))
  | _, [] => []
  | i, l :: logic => l.toks i ++ whereToks (i + 1) logic

def maxSql : ℕ := 1024

def deleteText (name : List Char) (logic : List (Logic V)) : List Char :=
  "DELETE FROM ".toList ++ name ++ match logic with
    | [] => []
    | _ => " WHERE ".toList ++ whereText 1 logic

/-- SQLite: a parser that keeps to the grammar, and what it does with values. -/
structure Sqlite (V : Type) where
  ops : Ops V
  parse : List (Tok (List Char)) → Option (Expr (List Char))
  derives : ∀ ts e, parse ts = some e → Derives ts e

def Sqlite.byPrec (ops : Ops V) : Sqlite V where
  ops := ops
  parse := parseAll
  derives _ _ := derives_of_parseAll

abbrev Row (V : Type) := List Char → Option V

/-- `db_delete`: the result and the rows that are left. No value is bound to the parameters. The
result is `none` when `strcat(sql, ";")` writes behind `sql`. -/
def dbDelete (sq : Sqlite V) (name : List Char) (logic : List (Logic V)) (rows : List (Row V)) :
    Option (Ret × List (Row V)) :=
  if logic.getLast?.any fun l => l.logic.isComb && l.logic ≠ .closep then
    some (.err .syntaxError, rows)
  else if maxSql ≤ (deleteText name logic).length + 1 then none
  else
    match logic with
    | [] => some (.ok, [])
    | _ =>
      match sq.parse (whereToks 1 logic) with
      | none => some (.err .syse, rows)
      | some e => some (.ok, rows.filter fun row => !e.holds sq.ops row fun _ => none)

def given (logic : List (Logic V)) (i : ℕ) : Option V :=
  logic[i - 1]?.bind Logic.value

/-- The rows that are gone are those that satisfy the condition. -/
def DeletesMatching (sq : Sqlite V) (logic : List (Logic V)) (rows rows' : List (Row V)) : Prop :=
  ∃ e, sq.parse (whereToks 1 logic) = some e ∧ rows' = rows.filter fun row => !e.holds sq.ops row (given logic)

end Model

section Lemmas
variable {V : Type} {sq : Sqlite V} {name : List Char} {logic : List (Logic V)} {rows rows' : List (Row V)}

theorem Sign.tok_compares {s : Sign} (h : s.isComb = false) : s.tok.Compares := by
  cases s <;> first | exact absurd h (by decide) | trivial

theorem Logic.compared_toks (l : Logic V) (i : ℕ) : Tok.Compared (l.toks i) := by
  unfold Logic.toks
  split_ifs with hcomb
  · constructor
    · exact .singleton _
    · intro c hc
      cases hl : l.logic <;> simp [hl, Sign.tok] at hc
  · have hcompares : l.logic.tok.Compares := Sign.tok_compares (by simpa using hcomb)
    have hparam : Tok.Follows l.logic.tok (.param i) := by
      cases l.logic <;> trivial
    constructor
    · exact .cons_cons hcompares (.cons_cons hparam (.singleton _))
    · simp

/-- In the text that `db_delete` makes, every column is compared with a parameter. -/
theorem compared_whereToks (logic : List (Logic V)) (i : ℕ) : Tok.Compared (whereToks i logic) := by
  induction logic generalizing i with
  | nil => exact ⟨.nil, by simp [whereToks]⟩
  | cons l logic ih => exact (l.compared_toks i).append (ih (i + 1))

theorem dbDelete_ok (h : dbDelete sq name logic rows = some (.ok, rows')) (hne : logic ≠ []) :
    rows' = rows ∧ ∃ e, sq.parse (whereToks 1 logic) = some e := by
  unfold dbDelete at h
  split_ifs at h
  · simp at h
  · cases logic with
    | nil => exact absurd rfl hne
    | cons l logic =>
      cases hparse : sq.parse (whereToks 1 (l :: logic)) with
      | none => simp [hparse] at h
      | some e =>
        have hnone : ∀ row : Row V, e.holds sq.ops row (fun _ => none) = false := by
          intro row
          rw [Expr.holds, (sq.derives _ _ hparse).eval_eq_none (compared_whereToks _ _)]
          rfl
        simp only [hparse, hnone, Bool.not_false, List.filter_true, Option.some.injEq, Prod.mk.injEq, true_and] at h
        exact ⟨h.symm, e, rfl⟩

/-- The rows that are removed are the right ones exactly when no row was to be removed. -/
theorem deletesMatching_iff (h : dbDelete sq name logic rows = some (.ok, rows')) (hne : logic ≠ []) :
    DeletesMatching sq logic rows rows' ↔ ∀ e, sq.parse (whereToks 1 logic) = some e →
        ∀ row ∈ rows, e.holds sq.ops row (given logic) = false := by
  obtain ⟨rfl, e, he⟩ := dbDelete_ok h hne
  simp only [DeletesMatching, he, Option.some.injEq, exists_eq_left', forall_eq']
  rw [eq_comm]
  simp

/-- The tables of the accounts, whose conditions have at most one entry, are deleted from in this way. -/
theorem dbDelete_eq {ret : Ret} (f : Logic V → DbLogic (Row V)) (h : dbDelete sq name logic rows = some (ret, rows'))
    (hf : ∀ l, (f l).unfinished = (l.logic.isComb && l.logic ≠ .closep)) :
    (ret = .err .syntaxError → Lib13.dbDelete logic.length (logic.map f) rows = some (.error .syntaxError)) ∧
      (ret = .ok → logic.length ≤ 1 → Lib13.dbDelete logic.length (logic.map f) rows = some (.ok rows')) := by
  have hlast : ((logic.map f).take logic.length).getLast?.any DbLogic.unfinished =
      logic.getLast?.any fun l => l.logic.isComb && l.logic ≠ .closep := by
    rw [List.take_of_length_le (by simp), List.getLast?_map, Option.any_map]
    congr
    exact funext hf
  by_cases hend : (logic.getLast?.any fun l => l.logic.isComb && l.logic ≠ .closep) = true
  · unfold dbDelete at h
    rw [if_pos hend] at h
    cases h
    rw [Lib13.dbDelete.eq_def, if_pos (hlast.trans hend)]
    exact ⟨fun _ => rfl, nofun⟩
  · have hend' := hlast ▸ hend
    unfold Lib13.dbDelete
    rw [if_neg hend']
    cases logic with
    | nil =>
      unfold dbDelete at h
      split_ifs at h
      cases h
      exact ⟨nofun, fun _ _ => rfl⟩
    | cons l logic =>
      constructor
      · rintro rfl
        unfold dbDelete at h
        split_ifs at h
        cases hparse : sq.parse (whereToks 1 (l :: logic)) <;> simp [hparse] at h
      · rintro rfl hone
        obtain rfl : logic = [] := by simpa using hone
        rw [(dbDelete_ok h (by simp)).1]
        rfl

end Lemmas

def intOps : Ops ℤ where
  cmp
    | .eq, a, b => a = b
    | .ne, a, b => a ≠ b
    | .lt, a, b => a < b
    | .le, a, b => a ≤ b
    | .gt, a, b => a > b
    | .ge, a, b => a ≥ b
  like a b := a = b
  truth a := a ≠ 0
  ofBool b := if b then 1 else 0

def idRow (id : ℤ) : Row ℤ := fun c => if c = "id".toList then some id else none

def idIs5 : List (Logic ℤ) := [⟨"id".toList, .eq, some 5⟩]

theorem parse_idIs5 : (Sqlite.byPrec intOps).parse (whereToks 1 idIs5) =
    some (.bin (.cmp .eq) (.col "id".toList) (.param 1)) := rfl

theorem deletesMatching_iff_none : DeletesMatching (.byPrec intOps) idIs5 [idRow 4, idRow 6] [idRow 4, idRow 6] := by
  have hrun : dbDelete (.byPrec intOps) "t".toList idIs5 [idRow 4, idRow 6] = some (.ok, [idRow 4, idRow 6]) := rfl
  refine (deletesMatching_iff hrun (by decide)).2 fun e he => ?_
  obtain rfl := Option.some.inj (parse_idIs5.symm.trans he)
  simp only [List.forall_mem_cons]
  exact ⟨rfl, rfl, by simp⟩

/-- The row stays, although it satisfies the condition. -/
theorem not_deletesMatching_idIs5 :
    dbDelete (.byPrec intOps) "t".toList idIs5 [idRow 5] = some (.ok, [idRow 5]) ∧
      ¬DeletesMatching (.byPrec intOps) idIs5 [idRow 5] [idRow 5] := by
  refine ⟨rfl, ?_⟩
  rintro ⟨e, he, hrows⟩
  obtain rfl := Option.some.inj (parse_idIs5.symm.trans he)
  cases hrows

end Prj.Lib13.Where
