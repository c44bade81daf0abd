import Prj.Ddlus.Stack

/-! Operators on the stack of an expression (`ddlus/console/calc.c`). The result of an operator is
stored in the token of one of its operands, which goes back on the stack. -/
namespace Prj.Ddlus
open Prj.Base Function

/-- The parts of the calculator that are taken as they come: arrays, mathematical functions,
commands and the functions that only work on the stack and the variables, and cutting a text into
the infix lists of its expressions, `none` for one that cannot be cut. `junk` is what an
uninitialised `ans` holds. -/
structure Ext (F : Type) where
  junk : F
  arrayVal : List (Var F) → List Char → ℤ → ℤ → F
  setArrayval : List (Var F) → List Char → ℤ → ℤ → F → List (Var F)
  define : Mach F → ℕ → ℕ → Option (Bool × Mach F)
  mathFn : Mach F → ℕ → Option (Bool × Mach F)
  fn : Mach F → ℕ → Option (Bool × Mach F)
  cmd : Mach F → ℕ → Option (Bool × Mach F)
  expressions : List Char → List (Option (List (Tok F)))

def Ext.nothing {F : Type} [Fnum F] : Ext F :=
  { junk := Fnum.zero, arrayVal := fun _ _ _ _ => Fnum.zero, setArrayval := fun vs _ _ _ _ => vs
    define := fun _ _ _ => none, mathFn := fun _ _ => none, fn := fun _ _ => none
    cmd := fun _ _ => none, expressions := fun _ => [] }

/-- The operators of `calc_basic` that only compute `val2 op tokval(tk1)`. -/
def arith {F : Type} [Fnum F] : TokId → Option (F → F → F)
  | .plus => some Fnum.add
  | .minus => some Fnum.sub
  | .mult => some Fnum.mul
  | .div => some Fnum.div
  | .pow => some Fnum.pow
  | .mod => some Fnum.fmod
  | .and => some Fnum.band
  | .or => some Fnum.bor
  | _ => none

/-- The comparisons of `calc_logic`. -/
def compare {F : Type} [Fnum F] : TokId → Option (F → F → Bool)
  | .lt => some Fnum.lt
  | .gt => some Fnum.gt
  | .eq => some Fnum.eq
  | .ne => some Fnum.ne
  | .le => some Fnum.le
  | .ge => some Fnum.ge
  | _ => none

namespace Mach
variable {F : Type} [Fnum F] (x : Ext F)

/-- The token as `tokval` leaves it. -/
def resolved (m : Mach F) (tk : ℕ) : Tok F := (m.tok tk).resolve (x.arrayVal m.vars) m.vars

def read (m : Mach F) (tk : ℕ) : F := (m.resolved x tk).signed

def tokval (m : Mach F) (tk : ℕ) : F × Mach F :=
  (m.read x tk, { m with tok := update m.tok tk (m.resolved x tk) })

/-- The end of `calc_basic` and `calc_logic`. -/
def result (m : Mach F) (tk1 : ℕ) (tk2 : Option ℕ) (ans : F) : Mach F :=
  let tk := tk2.getD tk1
  let m := pushCalc { m with tok := update m.tok tk ((m.tok tk).settokval ans) } tk
  { m with ncalc := m.ncalc + 1 }

/-- `val2`: without a second operand it is the last answer. -/
def leftVal (m : Mach F) : Option ℕ → F × Mach F
  | none => (varVal m.vars ansVarName, m)
  | some tk2 => m.tokval x tk2

/-- The second `switch` of `calc_logic`. -/
def logicOp (m : Mach F) (id : TokId) (tk1 : ℕ) (tk2 : Option ℕ) (val2 : F) : Mach F :=
  match compare id with
  | some cmp =>
    let (v, m) := m.tokval x tk1
    result m tk1 tk2 (ofBool (cmp val2 v))
  | none =>
    match id with
    | .andAnd =>
      -- C evaluates the right operand only if the left one does not decide
      if truth val2 then
        let (v, m) := m.tokval x tk1
        result m tk1 tk2 (ofBool (truth v))
      else result m tk1 tk2 (ofBool false)
    | .orOr =>
      if truth val2 then result m tk1 tk2 (ofBool true)
      else
        let (v, m) := m.tokval x tk1
        result m tk1 tk2 (ofBool (truth v))
    | _ => result m tk1 tk2 x.junk

def calcLogic (m : Mach F) (tk : ℕ) : Bool × Mach F :=
  match poptok m with
  | (none, m) => (false, m)
  | (some tk1, m) =>
    if (m.tok tk).id = .not then
      let (v, m) := m.tokval x tk1
      (true, result m tk1 none (ofBool (!truth v)))
    else
      let (tk2, m) := poptok m
      let (val2, m) := m.leftVal x tk2
      (true, logicOp x m (m.tok tk).id tk1 tk2 val2)

/-- What `+=` and `-=` do with `ans`. -/
def storeEq (m : Mach F) (tk2 : Option ℕ) (ans : F) : Mach F :=
  match tk2 with
  | some tk2 =>
    let t := m.tok tk2
    if t.id = .var then
      match setVarval m.vars t.str ans with
      | .ok vars => { m with vars }
      | .error msg => { m with out := msg :: m.out }
    else if t.id = .array then { m with vars := x.setArrayval m.vars t.str t.i t.j ans }
    else { m with out := .badarg t.str :: m.out }
  | none =>
    match setAnsvar m.vars ans with
    | some vars => { m with vars }
    | none => m

/-- `TOK_ASSIGN`; the last answer stays what it was. -/
def assign (m : Mach F) (tk1 tk2 : ℕ) : Option (Bool × Mach F) :=
  let ansreg := varVal m.vars ansVarName
  let done :=
    match (varPtr m.vars (m.tok tk2).str).bind fun i => (m.vars[i]?).map (i, ·) with
    | some (i, var) =>
      if var.i > -1 then x.define m tk1 tk2
      else
        let (v, m) := m.tokval x tk1
        some (true, { m with vars := putVal m.vars i v })
    | none => x.define m tk1 tk2
  match done with
  | some (true, m) =>
    let m := { m with vars := (setAnsvar m.vars ansreg).getD m.vars }
    some (true, result m tk1 (some tk2) ansreg)
  | r => r

/-- `TOK_ABR_OPEN`; `ans` is not set. -/
def index (m : Mach F) (tk1 tk2 : ℕ) : Mach F :=
  let (v, m) := { m with tok := update m.tok tk2 { m.tok tk2 with id := .array } }.tokval x tk1
  let t := m.tok tk2
  let t := if t.i = -1 then { t with i := Fnum.intval v } else { t with j := Fnum.intval v }
  result { m with tok := update m.tok tk2 t } tk1 (some tk2) x.junk

/-- The `switch` of `calc_basic`. -/
def basicOp (m : Mach F) (id : TokId) (tk1 : ℕ) (tk2 : Option ℕ) (val2 : F) : Option (Bool × Mach F) :=
  match arith id with
  | some f =>
    let (v, m) := m.tokval x tk1
    some (true, result m tk1 tk2 (f val2 v))
  | none =>
    match id, tk2 with
    | .assign, none => some (false, m)
    | .assign, some tk2 => assign x m tk1 tk2
    | .abrOpen, none => some (false, m)
    | .abrOpen, some tk2 => some (true, index x m tk1 tk2)
    | .plusEq, tk2 =>
      let (v, m) := m.tokval x tk1
      let m := storeEq x m tk2 (Fnum.add val2 v)
      -- there is no `break`: the code of `-=` follows
      let (v, m) := m.tokval x tk1
      let m := storeEq x m tk2 (Fnum.sub val2 v)
      some (true, result m tk1 tk2 (Fnum.sub val2 v))
    | .minusEq, tk2 =>
      let (v, m) := m.tokval x tk1
      let m := storeEq x m tk2 (Fnum.sub val2 v)
      some (true, result m tk1 tk2 (Fnum.sub val2 v))
    | .plusPlus, none =>
      let (v, m) := m.tokval x tk1
      some (true, result m tk1 none (Fnum.add v Fnum.one))
    | .minusMinus, none =>
      let (v, m) := m.tokval x tk1
      some (true, result m tk1 none (Fnum.sub v Fnum.one))
    | .plusPlus, some tk2 | .minusMinus, some tk2 =>
      let (v2, m) := m.tokval x tk2
      let (v, m) := m.tokval x tk1
      some (true, result m tk1 (some tk2) (Fnum.add v2 v))
    | _, _ => some (false, m)

def calcBasic (m : Mach F) (tk : ℕ) : Option (Bool × Mach F) :=
  match poptok m with
  | (none, m) => some (false, m)
  | (some tk1, m) =>
    let (tk2, m) := poptok m
    let (val2, m) := m.leftVal x tk2
    basicOp x m (m.tok tk).id tk1 tk2 val2

omit [Fnum F] in
/-- `if(!...){ printe(msg); return false_; }` -/
def printed (msg : Msg) (r : Bool × Mach F) : Bool × Mach F :=
  if r.1 then r else (false, { r.2 with out := msg :: r.2.out })

/-- What `runprefix` does with a token that is neither a function, a command nor a block. -/
def calcTok (m : Mach F) (ent : ℕ) : Option (Bool × Mach F) :=
  match (m.tok ent).type with
  | .mathBasic => (calcBasic x m ent).map (printed .badcalc)
  | .mathFunc => (x.mathFn m ent).map (printed .badcalc)
  | .mathLogic => some (printed .badlogic (calcLogic x m ent))
  | .number => some (true, pushCalc { m with ncalc := m.ncalc + 1 } ent)
  | .spec => some (true, if (m.tok ent).id = .col then m else pushCalc m ent)
  | _ => some (true, pushCalc m ent)

end Mach
end Prj.Ddlus
