import Prj.Ddlus.Sess

/-! Running expressions (`runprefix` in `ddlus/console/calc.c`, `run_ci` in `double.c`) and the
functions that steer a run (`flow.c`, `if.c`). A run gives its result and the session, also when it
is stuck: out of fuel, at a null pointer, or in a function that does not return. -/
namespace Prj.Ddlus
open Prj.Base Function

/-- A result, `none` when the run is stuck, and the session. -/
abbrev Res (F α : Type) : Type := Option α × Sess F

/-- How a token lets `runprefix` go on. -/
inductive Flow
  | go
  | ret (b : Bool)

namespace Res
variable {F α β : Type}

def bind (r : Res F α) (k : α → Sess F → Res F β) : Res F β :=
  match r with
  | (some a, s) => k a s
  | (none, s) => (none, s)

/-- A function on the session seen from expression `e`. -/
def within (s : Sess F) (e : ℕ) (r : Option (α × Mach F)) : Res F α :=
  match r with
  | some (a, m) => (some a, s.put e m)
  | none => (none, s)

def lift (s : Sess F) (r : Option (Sess F)) : Res F Unit :=
  match r with
  | some s => (some (), s)
  | none => (none, s)

end Res

namespace Sess
variable {F : Type} [Fnum F] (x : Ext F)

/-- `poptok`, or a message and `false_` if there is nothing. -/
def popOr (s : Sess F) (e : ℕ) (msg : Msg) (k : ℕ → Sess F → Res F Bool) : Res F Bool :=
  match (s.mach e).poptok with
  | (some tk, m) => k tk (s.put e m)
  | (none, m) => (some false, (s.put e m).print msg)

def labl (s : Sess F) (e : ℕ) : Res F Bool :=
  s.popOr e (.moreargs ['l', 'a', 'b', 'e', 'l']) fun tk s =>
    let name := (s.tok tk).str
    if s.labels.any (·.name = name) then (some false, s.print (.exist name))
    else
      let nextexp := (s.exps e).next
      (some true, { s with labels := s.labels ++ [Label.mk name s.pre nextexp] }.record (.label name e nextexp))

/-- `jump`, which is `goto`. -/
def jump (s : Sess F) (e : ℕ) : Res F Bool :=
  s.popOr e (.moreargs ['j', 'u', 'm', 'p']) fun tk s =>
    let name := (s.tok tk).str
    if s.brk then (some true, { s with brk := false })
    else if s.goto then (some false, s.print (.forbid name))
    else
      match s.labels.find? (·.name = name) with
      | some l =>
        let left := l.nextexp.bind fun e => (s.exps e).prefixfirst
        (some true, { { s with pre := l.pre }.setCur l.nextexp with goto := true }.record (.goto name l.nextexp left))
      | none => (some false, s.print (.notfound name))

/-- `do_jump`, which skips expressions. -/
def doJump (s : Sess F) (e : ℕ) : Res F Bool :=
  match (s.mach e).poptok with
  | (none, m) => (some true, { s.put e m with njump := 1 })
  | (some tk, m) =>
    let (v, m) := m.tokval x tk
    (some true, { s.put e m with njump := Fnum.intval v })

/-- Between `LOAD(1)` and `RESTORE(1)`: the branch of expression `e` is run by `ci`. A branch that
exists is used whatever block it was compiled from. -/
def runBranch (ci : Sess F → Res F Bool) (fuel : ℕ) (s : Sess F) (e block : ℕ) (cond : IfCond) : Res F Bool :=
  let ready := { s with autorun := .notdef, autopre := none }.setIfcond e cond
  let branch : Res F Unit := .lift ready <|
    match (ready.exps e).branch with
    | none => (ready.precompile x fuel (ready.tok block).str).map fun (p, s') =>
        { s'.setBranch e p with pre := p }
    | some p => restorePrefix fuel { ready with pre := p }
  branch.bind fun _ s₁ =>
    let src := (s₁.pres s₁.pre).src
    (ci ({ s₁ with depth := s.depth + 1 }.record (.block s.depth e src))).bind fun _ s₂ =>
      (some true, ({ s₂ with
        depth := s.depth, autorun := s.autorun, autopre := s.autopre, pre := s.pre }.setCur
          (some e)).setIfcond e (s.exps e).ifcond)

def runIf (ci : Sess F → Res F Bool) (fuel : ℕ) (s : Sess F) (e : ℕ) : Res F Bool :=
  s.popOr e (.baduse ['i', 'f']) fun block s =>
    s.popOr e (.baduse ['i', 'f']) fun logic s =>
      let (v, m) := (s.mach e).tokval x logic
      let s := s.put e m
      if truth v then s.runBranch x ci fuel e block .true_
      else (some true, s.setIfcond e .false_)

/-- `_if` -/
def ifFn (ci : Sess F → Res F Bool) (fuel : ℕ) (s : Sess F) (e : ℕ) : Res F Bool :=
  if (s.exps e).ifcond ≠ .noif then (some false, s.print (.forbid ['i', 'f']))
  else s.runIf x ci fuel e

/-- `_else_if` -/
def elseIfFn (ci : Sess F → Res F Bool) (fuel : ℕ) (s : Sess F) (e : ℕ) : Res F Bool :=
  match (s.exps e).ifcond with
  | .true_ => (some true, s.put e ((s.mach e).poptok.2.poptok.2))
  | .false_ => s.runIf x ci fuel e
  | _ => (some false, s.print (.baduse ['e', 'l', 's', 'e', 'i', 'f']))

/-- `_else` -/
def elseFn (ci : Sess F → Res F Bool) (fuel : ℕ) (s : Sess F) (e : ℕ) : Res F Bool :=
  let bad := Msg.baduse ['e', 'l', 's', 'e']
  match (s.exps e).ifcond with
  | .true_ => s.popOr e bad fun _ s => (some true, s.setIfcond e .endif)
  | .false_ => s.popOr e bad fun block s =>
      (s.runBranch x ci fuel e block (s.exps e).ifcond).bind fun b s =>
        (some b, s.setIfcond e .endif)
  | _ => (some false, s.print bad)

def runFn (ci : Sess F → Res F Bool) (fuel : ℕ) (s : Sess F) (e ent : ℕ) : Res F Bool :=
  match (s.tok ent).id with
  | .label => s.labl e
  | .goto => s.jump e
  | .return_ => (some true, { s with brk := true })
  | .jump => s.doJump x e
  | .if_ => s.ifFn x ci fuel e
  | .elseif => s.elseIfFn x ci fuel e
  | .else_ => s.elseFn x ci fuel e
  | .for_ => (some false, s.print (.implement ['f', 'o', 'r']))
  | _ => .within s e (x.fn (s.mach e) ent)

/-- The `switch` of `runprefix`. -/
def runTok (ci : Sess F → Res F Bool) (fuel : ℕ) (s : Sess F) (e ent : ℕ) : Res F Flow :=
  let go (b : Bool) : Flow := if b then .go else .ret false
  match (s.tok ent).type with
  | .func => (s.runFn x ci fuel e ent).bind fun b s => (some (go b), s)
  | .command => (Res.within s e (x.cmd (s.mach e) ent)).bind fun b s => (some (.ret b), s)
  | .block => (some .go, s.put e ((s.mach e).pushCalc ent))
  | _ => (Res.within s e ((s.mach e).calcTok x ent)).bind fun b s => (some (go b), s)

/-- The token at the head of the prefix list is taken off; `prenext` keeps the order. -/
def advance (s : Sess F) (e ent : ℕ) : Sess F :=
  (s.put e { s.mach e with
    prenext := update s.prenext ent (s.next ent), prefixfirst := s.next ent }).record (.exec e)

/-- The loop of `runprefix`; each round looks up the current expression again. -/
def runTokens (ci : Sess F → Res F Bool) (fuel : ℕ) : ℕ → Sess F → Res F Flow
  | 0, s => (none, s)
  | n + 1, s =>
    match s.cur with
    | none => (none, s)
    | some e =>
      match (s.exps e).prefixfirst with
      | none => (some .go, s)
      | some ent => ((s.advance e ent).runTok x ci fuel e ent).bind fun f s =>
          match f with
          | .go => runTokens ci fuel n s
          | .ret b => (some (.ret b), s)

/-- `set_ansvar(sess, tokval(sess, ent))` -/
def answer (s : Sess F) (e : ℕ) (m : Mach F) (ent : ℕ) : Res F Bool :=
  let (v, m) := m.tokval x ent
  .within s e ((setAnsvar m.vars v).map fun vars => (true, { m with vars }))

/-- The end of `runprefix`. -/
def finish (fuel : ℕ) (s : Sess F) : Res F Bool :=
  match s.cur with
  | none => (none, s)
  | some e =>
    if s.ncalc ≠ 0 then
      match (s.mach e).poptok with
      | (none, m) => (some true, (s.put e m).setIfcond e .noif)
      | (some ent, m) =>
        match m.poptok with
        | (none, m) => s.answer x e m ent
        | (some ent2, m) =>
          if (m.tok ent2).id = .var ∨ (m.tok ent2).id = .array then s.answer x e m ent
          else (some false, (s.put e m).print (.badexp (m.tok ent2).str))
    else if s.more then .within s e (((s.mach e).popAll fuel).map (true, ·))
    else (some true, s)

def runPrefix (ci : Sess F → Res F Bool) (fuel : ℕ) (s : Sess F) : Res F Bool :=
  match s.cur with
  | none => (none, s)
  | some e =>
    match (s.mach e).popAll fuel with
    | none => (none, s)
    | some m =>
      (runTokens x ci fuel fuel (s.put e { m with prefixfirst := m.saveprefixfirst })).bind fun f s =>
          match f with
          | .go => s.finish x fuel
          | .ret b => (some b, s)

/-- The loop of `run_ci`; `false` is the `return continue_` after an error. -/
def ciLoop (ci : Sess F → Res F Bool) (fuel : ℕ) : ℕ → Sess F → Res F Bool
  | 0, s => (none, s)
  | n + 1, s =>
    match s.cur with
    | none => (some true, s)
    | some e =>
      if s.brk then (some true, { s.setCur none with goto := false, brk := false })
      else if s.njump ≠ 0 then
        ciLoop ci fuel n { s.setCur (s.exps e).next with njump := s.njump - 1 }
      else
        (s.runPrefix x ci fuel).bind fun b s =>
          if !b then (some false, s)
          else
            (if s.goto then
              let gotoexp := s.cur
              (Res.lift s (restorePrefix fuel { s with goto := false })).bind fun _ s =>
                (some (), s.setCur gotoexp)
            else (some (), s)).bind fun _ s =>
              match s.cur with
              | none => (none, s)
              | some e => ciLoop ci fuel n (s.setCur (s.exps e).next)

/-- The end of `run_ci`. -/
def afterCi (ci : Sess F → Res F Bool) (fuel : ℕ) (s : Sess F) : Res F Bool :=
  match s.autorun, s.autopre with
  | .defon, some autopre =>
    let s := s.setCur (s.pres s.pre).expfirst
    (ci { s with pre := autopre, autorun := .running }).bind fun _ s₁ =>
      (Res.lift s₁ (restorePrefix fuel s₁)).bind fun _ s₂ =>
        let s₃ := { s₂ with pre := s.pre }.setCur s.cur
        (some true, match s.cur with
          | some e => s₃.setIfcond e (s.exps e).ifcond
          | none => s₃)
  | .running, _ | .defnow, _ => (some true, { s with autorun := .defon })
  | _, _ => (some true, s)

def runCi : ℕ → Sess F → Res F Bool
  | 0, s => (none, s)
  | n + 1, s =>
    (ciLoop x (runCi n) n n (s.setCur (s.pres s.pre).expfirst)).bind fun b s =>
      if b then s.afterCi (runCi n) n else (some false, s)

end Sess
end Prj.Ddlus
