import Mathlib.Algebra.Group.Int.Defs
import Prj.Base.Precedence

/-! Tokens, numbers and variables of the calculator (`ddlus/console/analyze.c`, `var.c`). The
session has no forks and no clipboard, so a variable is always one of its own. -/
namespace Prj.Ddlus
open Prj.Base List

/-- `enum tok_type_t`. -/
inductive TokType
  | empty | all | block | spec | number | mathBasic | string | mathFunc | mathLogic | func
  | command | reserve | inval
deriving DecidableEq

/-- `enum tok_t`. Functions, arguments and commands that are told apart only by their own code are
numbered. -/
inductive TokId
  | empty | sep | col | white | strpack | chain | brOpen | brClose | block | blockOpen | blockClose
  | abrOpen | abrClose | int | real | science | date | var | array | str
  | plus | minus | mult | div | pow | mod | assign | and | or | plusPlus | minusMinus
  | plusEq | minusEq
  | mathFunc (n : ℕ)
  | lt | gt | eq | ne | le | ge | andAnd | orOr | not
  | if_ | elseif | else_ | for_ | label | goto | return_ | jump
  | func (n : ℕ) | reserve (n : ℕ) | command (n : ℕ)
  | inval
deriving DecidableEq

/-- The `type` column of `tok[]`. -/
def TokId.type : TokId → TokType
  | empty | sep | col | white | strpack | chain | inval => .spec
  | brOpen | brClose | abrOpen | abrClose => .mathBasic
  | block | blockOpen | blockClose => .block
  | int | real | science | date => .number
  | var | array | str => .string
  | plus | minus | mult | div | pow | mod | assign | and | or | plusPlus | minusMinus | plusEq
  | minusEq => .mathBasic
  | mathFunc _ => .mathFunc
  | lt | gt | eq | ne | le | ge | andAnd | orOr | not => .mathLogic
  | if_ | elseif | else_ | for_ | label | goto | return_ | jump | func _ => .func
  | reserve _ => .reserve
  | command _ => .command

/-- The `pred` column of `tok[]`; the bigger number binds less. -/
def TokId.pred : TokId → ℕ
  | empty | sep => 1
  | col => 198
  | white | strpack => 100
  | chain => 12
  | brOpen => 200
  | brClose | abrClose => 1
  | block => 15
  | blockOpen | blockClose => 150
  | abrOpen => 199
  | int | real | science | date | var | array | str => 99
  | plus | minus | plusPlus | minusMinus => 15
  | mult | div | pow | mod => 13
  | assign | plusEq | minusEq => 201
  | and | or => 16
  | mathFunc _ => 2
  | lt | gt | eq | ne | le | ge => 19
  | andAnd | orOr | not => 20
  | if_ => 16
  | elseif => 17
  | else_ | for_ => 18
  | label | goto | return_ | jump | func _ => 2
  | reserve _ => 3
  | command _ | inval => 0

/-- What the calculator uses of `fnum_t` (`long double`). The operators are arbitrary. -/
class Fnum (F : Type) where
  zero : F
  one : F
  neg : F → F
  strtold : List Char → F
  intval : F → ℤ
  add : F → F → F
  sub : F → F → F
  mul : F → F → F
  div : F → F → F
  pow : F → F → F
  fmod : F → F → F
  /-- `intval(x) & intval(y)` -/
  band : F → F → F
  /-- `intval(x) | intval(y)` -/
  bor : F → F → F
  lt : F → F → Bool
  gt : F → F → Bool
  eq : F → F → Bool
  ne : F → F → Bool
  le : F → F → Bool
  ge : F → F → Bool
  neg_neg : ∀ x, neg (neg x) = x
  zero_nonneg : lt zero zero = false
  one_nonneg : lt one zero = false

section
variable {F : Type} [Fnum F]
open Fnum

def isNeg (x : F) : Bool := lt x zero

def truth (x : F) : Bool := ne x zero

def ofBool (b : Bool) : F := if b then one else zero

end

instance : Fnum ℤ where
  zero := 0
  one := 1
  neg x := -x
  strtold := List.foldl (fun n c => 10 * n + (c.toNat - '0'.toNat : ℤ)) 0
  intval x := x
  add := (· + ·)
  sub := (· - ·)
  mul := (· * ·)
  div := Int.tdiv
  pow x y := x ^ y.toNat
  fmod := Int.tmod
  band x y := (x.toNat &&& y.toNat : ℕ)
  bor x y := (x.toNat ||| y.toNat : ℕ)
  lt x y := decide (x < y)
  gt x y := decide (y < x)
  eq x y := decide (x = y)
  ne x y := decide (x ≠ y)
  le x y := decide (x ≤ y)
  ge x y := decide (y ≤ x)
  neg_neg x := Int.neg_neg x
  zero_nonneg := rfl
  one_nonneg := rfl

inductive VarType
  | norm | sys | ctl | array
deriving DecidableEq

/-- `struct variable`; `i` is negative unless it is an array member. -/
structure Var (F : Type) where
  name : List Char
  type : VarType
  lock : Bool
  val : F
  i : ℤ

def ansVarName : List Char := ['a', 'n', 's']
def clipVarName : List Char := ['c', 'l', 'i', 'p']

/-- Messages of `printe`, with what stands in their brackets. -/
inductive Msg
  | moreargs (s : List Char)
  | badarg (s : List Char)
  | exist (s : List Char)
  | notfound (s : List Char)
  | forbid (s : List Char)
  | badcalc
  | badlogic
  | badexp (s : List Char)
  | implement (s : List Char)
  | baduse (s : List Char)
  | nomatch (prev cur : List Char)
deriving DecidableEq

section Variables
variable {F : Type} [Fnum F] (vars : List (Var F)) (name : List Char)

/-- `var_ptr`: `@name` is `name`, and a second `@` names a fork. -/
def varPtr : Option ℕ :=
  let name := match name with
    | '@' :: rest => if '@' ∈ rest then none else some rest
    | name => some name
  match name with
  | none => none
  | some name => if name = clipVarName then none else vars.findIdx? (·.name = name)

def varVal : F :=
  match (varPtr vars name).bind (vars[·]?) with
  | some v => if v.type ≠ .array then v.val else Fnum.zero
  | none => Fnum.zero

/-- `var->val = val` -/
def putVal (vars : List (Var F)) (i : ℕ) (val : F) : List (Var F) :=
  vars.modify i fun v => { v with val }

/-- `set_varval`: the message of a refusal. -/
def setVarval (val : F) : Except Msg (List (Var F)) :=
  match varPtr vars name with
  | none => .error (.notfound name)
  | some i =>
    match vars[i]? with
    | none => .error (.notfound name)
    | some v =>
      if v.type = .sys ∨ v.type = .ctl ∨ v.lock then .error (.forbid name)
      else if v.type = .array then .error (.baduse name)
      else .ok (putVal vars i val)

def setAnsvar (val : F) : Option (List (Var F)) :=
  (varPtr vars ansVarName).map (putVal vars · val)

end Variables

section
variable {F : Type} {vars : List (Var F)} {name : List Char} {i : ℕ} {val : F}

theorem map_name_putVal (vars : List (Var F)) (i : ℕ) (val : F) :
    (putVal vars i val).map (·.name) = vars.map (·.name) := by
  apply ext_getElem?
  intro j
  simp only [putVal, getElem?_map, getElem?_modify]
  by_cases h : i = j <;> cases vars[j]? <;> simp [h]

@[simp] theorem varPtr_putVal : varPtr (putVal vars i val) name = varPtr vars name := by
  have hfind : ∀ (vs : List (Var F)) (n : List Char), vs.findIdx? (·.name = n) =
      (vs.map (·.name)).findIdx? (· = n) := by
    intro vs n
    rw [findIdx?_map]
    rfl
  simp only [varPtr, hfind, map_name_putVal]

variable [Fnum F]

theorem varVal_putVal_self {v : Var F} (hi : varPtr vars name = some i) (hv : vars[i]? = some v)
    (ht : v.type ≠ .array) : varVal (putVal vars i val) name = val := by
  rw [varVal, varPtr_putVal, hi]
  simp [putVal, hv, ht]

theorem varVal_putVal_of_ne (hi : varPtr vars name ≠ some i) : varVal (putVal vars i val) name = varVal vars name := by
  unfold varVal
  rw [varPtr_putVal]
  cases hj : varPtr vars name with
  | none => rfl
  | some j =>
    have hne : i ≠ j := fun heq => hi (by rw [hj, heq])
    simp [putVal, getElem?_modify, hne]

def HasAns (vars : List (Var F)) : Prop :=
  ∃ i v, varPtr vars ansVarName = some i ∧ vars[i]? = some v ∧ v.type = .sys

theorem setAnsvar_spec (h : HasAns vars) (val : F) :
    ∃ vars', setAnsvar vars val = some vars' ∧ varVal vars' ansVarName = val := by
  obtain ⟨i, v, hi, hv, ht⟩ := h
  exact ⟨putVal vars i val, by simp [setAnsvar, hi], varVal_putVal_self hi hv (by simp [ht])⟩

end

/-- `struct tok_s` without its links; `neg` and `res` are its flags. `valreg` has no value before
the token is read for the first time. -/
structure Tok (F : Type) where
  id : TokId
  type : TokType
  pred : ℕ
  str : List Char
  neg : Bool
  res : Bool
  val : F
  valreg : F
  i : ℤ
  j : ℤ

namespace Tok
variable {F : Type} {t t' k : Tok F}

def fresh [Fnum F] (id : TokId) (str : List Char) : Tok F :=
  { id, type := id.type, pred := id.pred, str, neg := false, res := false
    val := Fnum.zero, valreg := Fnum.zero, i := -1, j := -1 }

/-- `make_stacktok` and `morph_tok` take type and precedence from `tok[]`. -/
def FromTable (t : Tok F) : Prop := t.type = t.id.type ∧ t.pred = t.id.pred

def shape (t : Tok F) : TokId × TokType × ℕ × List Char × ℤ × ℤ :=
  (t.id, t.type, t.pred, t.str, t.i, t.j)

theorem id_eq_of_shape (h : t'.shape = t.shape) : t'.id = t.id := congrArg (·.1) h

theorem shape_update {tok : ℕ → Tok F} {t : ℕ} (h : k.shape = (tok t).shape) (a : ℕ) :
    (Function.update tok t k a).shape = (tok a).shape := by
  by_cases heq : a = t
  · rw [heq, Function.update_self, h]
  · rw [Function.update_of_ne heq]

theorem fromTable_of_shape (hs : t'.shape = t.shape) (h : t.FromTable) : t'.FromTable := by
  simp only [Tok.shape, Prod.mk.injEq] at hs
  exact ⟨by rw [hs.2.1, h.1, hs.1], by rw [hs.2.2.1, h.2, hs.1]⟩

variable [Fnum F]

/-- `tk->flags & TOKF_NEG ? -tk->val : tk->val` -/
def signed (t : Tok F) : F := if t.neg then Fnum.neg t.val else t.val

/-- What `tokval` stores in a token that is not resolved. -/
def resolve (arrayVal : List Char → ℤ → ℤ → F) (vars : List (Var F)) (t : Tok F) : Tok F :=
  if t.res then t
  else match t.id with
    | .int | .real | .science =>
      { t with
        val := Fnum.strtold t.str
        valreg := if t.neg then Fnum.neg (Fnum.strtold t.str) else Fnum.strtold t.str
        res := true }
    | .var => { t with val := varVal vars t.str, res := true }
    | .array => { t with val := arrayVal t.str t.i t.j, res := true }
    | _ => { t with val := Fnum.zero, res := true }

def settokval (t : Tok F) (val : F) : Tok F :=
  { t with val := if isNeg val then Fnum.neg val else val, neg := isNeg val, res := true }

section
variable (a : List Char → ℤ → ℤ → F)
include a

section
variable (vars : List (Var F)) (t : Tok F)

theorem resolve_eq : ∃ val valreg, t.resolve a vars = { t with val, valreg, res := true } := by
  unfold resolve
  by_cases h : t.res
  · exact ⟨t.val, t.valreg, by rw [if_pos h, ← h]⟩
  · rw [if_neg h]
    split <;> exact ⟨_, _, rfl⟩

@[simp] theorem res_resolve : (t.resolve a vars).res = true := by
  obtain ⟨_, _, h⟩ := resolve_eq a vars t
  rw [h]

@[simp] theorem shape_resolve : (t.resolve a vars).shape = t.shape := by
  obtain ⟨_, _, h⟩ := resolve_eq a vars t
  rw [h]
  rfl

end
end

@[simp] theorem shape_settokval (t : Tok F) (val : F) : (t.settokval val).shape = t.shape := rfl

theorem resolve_of_res {a : List Char → ℤ → ℤ → F} {vars : List (Var F)} (h : t.res = true) : t.resolve a vars = t := by
  rw [resolve, if_pos h]

@[simp] theorem signed_settokval (t : Tok F) (val : F) : (t.settokval val).signed = val := by
  unfold settokval signed
  cases h : isNeg val <;> simp [Fnum.neg_neg]

end Tok
end Prj.Ddlus
