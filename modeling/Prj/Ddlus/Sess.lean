import Prj.Ddlus.Value

/-! Sessions: expressions and the lists of them that are compiled together (`struct pre_exp`).
Compiling and restoring a whole list (`prefix_exp`, `_precompile` and `restore_prefix`). -/
namespace Prj.Ddlus
open Prj.Base Function Option

inductive IfCond
  | noif | true_ | false_ | endif
deriving DecidableEq

inductive Autorun
  | notdef | defon | defoff | running | defnow
deriving DecidableEq

/-- `struct expression`. The `EXPF_FOR` flags are never set. -/
structure Exp where
  infixfirst : Option ℕ
  prefixfirst : Option ℕ
  prefixlast : Option ℕ
  saveprefixfirst : Option ℕ
  stacktop : Option ℕ
  ifcond : IfCond
  next : Option ℕ
  branch : Option ℕ

/-- `struct pre_exp`, and the text it was compiled from. -/
structure Pre where
  expfirst : Option ℕ
  explast : Option ℕ
  exp : Option ℕ
  src : List Char

structure Label where
  name : List Char
  pre : ℕ
  nextexp : Option ℕ

inductive Event
  /-- a token of the expression is executed -/
  | exec (e : ℕ)
  /-- `label name` in expression `e`, before `nextexp` -/
  | label (name : List Char) (e : ℕ) (nextexp : Option ℕ)
  /-- `goto name` jumps to `nextexp`, of whose prefix list `left` is left -/
  | goto (name : List Char) (nextexp left : Option ℕ)
  /-- the branch of expression `e`, compiled from `src`, is run as a block -/
  | block (depth e : ℕ) (src : List Char)
deriving DecidableEq

/-- `struct session`. `more` says that text is left in `sess->next`; `depth` and `log` are for the
record. Tokens, expressions and lists below `ntok`, `nexp` and `npre` are allocated. -/
structure Sess (F : Type) where
  tok : ℕ → Tok F
  next : ℕ → Option ℕ
  prenext : ℕ → Option ℕ
  infixnext : ℕ → Option ℕ
  vars : List (Var F)
  ncalc : ℤ
  calcreg : ℤ
  out : List Msg
  exps : ℕ → Exp
  pres : ℕ → Pre
  ntok : ℕ
  nexp : ℕ
  npre : ℕ
  pre : ℕ
  autorun : Autorun
  autopre : Option ℕ
  goto : Bool
  brk : Bool
  njump : ℤ
  labels : List Label
  more : Bool
  depth : ℕ
  log : List Event

namespace Sess
variable {F : Type} (s : Sess F)

/-- `sess->pre->exp` -/
def cur : Option ℕ := (s.pres s.pre).exp

def setCur (e : Option ℕ) : Sess F :=
  { s with pres := update s.pres s.pre { s.pres s.pre with exp := e } }

def setIfcond (e : ℕ) (c : IfCond) : Sess F :=
  { s with exps := update s.exps e { s.exps e with ifcond := c } }

def setBranch (e p : ℕ) : Sess F :=
  { s with exps := update s.exps e { s.exps e with branch := some p } }

def print (msg : Msg) : Sess F := { s with out := msg :: s.out }

def record (ev : Event) : Sess F := { s with log := ev :: s.log }

/-- The session seen from expression `e`. -/
def mach (e : ℕ) : Mach F :=
  { tok := s.tok, next := s.next, prenext := s.prenext, infixnext := s.infixnext
    infixfirst := (s.exps e).infixfirst, prefixfirst := (s.exps e).prefixfirst
    prefixlast := (s.exps e).prefixlast, saveprefixfirst := (s.exps e).saveprefixfirst
    stacktop := (s.exps e).stacktop
    vars := s.vars, ncalc := s.ncalc, calcreg := s.calcreg, out := s.out }

/-- What a function did to the session seen from expression `e`. -/
def put (e : ℕ) (m : Mach F) : Sess F :=
  { s with
    tok := m.tok, next := m.next, prenext := m.prenext, infixnext := m.infixnext
    vars := m.vars, ncalc := m.ncalc, calcreg := m.calcreg, out := m.out
    exps := update s.exps e { s.exps e with
      infixfirst := m.infixfirst, prefixfirst := m.prefixfirst, prefixlast := m.prefixlast
      saveprefixfirst := m.saveprefixfirst, stacktop := m.stacktop } }

@[simp] theorem mach_put (e : ℕ) (m : Mach F) : (s.put e m).mach e = m := by
  simp [mach, put]

@[simp] theorem put_put (e : ℕ) (m m' : Mach F) : (s.put e m).put e m' = s.put e m' := by
  simp [put]

@[simp] theorem cur_setCur (e : Option ℕ) : (s.setCur e).cur = e := by
  simp [setCur, cur]

def start [Fnum F] (vars : List (Var F)) : Sess F :=
  { tok := fun _ => .fresh .empty [], next := fun _ => none, prenext := fun _ => none
    infixnext := fun _ => none, vars, ncalc := 0, calcreg := 0, out := []
    exps := fun _ => { infixfirst := none, prefixfirst := none, prefixlast := none
                       saveprefixfirst := none, stacktop := none, ifcond := .noif, next := none
                       branch := none }
    pres := fun _ => { expfirst := none, explast := none, exp := none, src := [] }
    ntok := 0, nexp := 0, npre := 1, pre := 0, autorun := .notdef, autopre := none, goto := false
    brk := false, njump := 0, labels := [], more := false, depth := 0, log := [] }

/-- `new_exp` and `init_exp` -/
def newExp : Sess F :=
  let e := s.nexp
  let pre := s.pres s.pre
  let exps := match pre.expfirst, pre.explast with
    | some _, some last => update s.exps last { s.exps last with next := some e }
    | _, _ => s.exps
  { s with
    nexp := e + 1
    exps := update exps e
      { infixfirst := none, prefixfirst := none, prefixlast := none, saveprefixfirst := none
        stacktop := none, ifcond := .noif, next := none, branch := none }
    pres := update s.pres s.pre
      { pre with expfirst := some (pre.expfirst.getD e), explast := some e, exp := some e } }

def addInfix (e : ℕ) (ts : List (Tok F)) : Sess F :=
  let n := s.ntok
  { s with
    ntok := n + ts.length
    tok := fun a => if n ≤ a then ts.getD (a - n) (s.tok a) else s.tok a
    infixnext := fun a => if n ≤ a then (if a + 1 < n + ts.length then some (a + 1) else none)
      else s.infixnext a
    exps := update s.exps e { s.exps e with infixfirst := if ts = [] then none else some n } }

/-- The loop of `prefix_exp`. It stops with `continue_`, which is not zero, at an expression that
cannot be compiled. -/
def prefixExps (fuel : ℕ) : List (Option (List (Tok F))) → Sess F → Option (Sess F)
  | [], s => some s
  | none :: _, s => some s.newExp
  | some ts :: rest, s =>
    let e := s.nexp
    let s := s.newExp.addInfix e ts
    match (s.mach e).compile fuel with
    | none => none
    | some (true, m) => prefixExps fuel rest (s.put e m)
    | some (false, m) => some (s.put e m)

/-- `_precompile`, when memory is available: the new list. -/
def precompile (x : Ext F) (fuel : ℕ) (text : List Char) : Option (ℕ × Sess F) :=
  let p := s.npre
  let new := { s with
    npre := p + 1
    pre := p
    pres := update s.pres p { expfirst := none, explast := none, exp := none, src := text } }
  (prefixExps fuel (x.expressions text) new).map fun s' => (p, { s' with pre := s.pre })

/-- The loop of `restore_prefix` from expression `e` on; `rec` restores a branch. -/
def restoreExps [Fnum F] (rec : Sess F → Option (Sess F)) (fuel : ℕ) : ℕ → Option ℕ → Sess F → Option (Sess F)
  | 0, _, _ => none
  | _ + 1, none, s => some (s.setCur none)
  | n + 1, some e, s =>
    let s := s.setCur (some e)
    (((s.mach e).restoreExp fuel).bind fun m =>
      let s := s.put e m
      match (s.exps e).branch with
      | none => some s
      | some b => (rec { s with pre := b }).map fun s' => { s' with pre := s.pre }).bind fun s =>
        restoreExps rec fuel n (s.exps e).next s

/-- `restore_prefix`; what it returns is never zero. -/
def restorePrefix [Fnum F] : ℕ → Sess F → Option (Sess F)
  | 0, _ => none
  | n + 1, s =>
    match (s.pres s.pre).expfirst with
    | none => some s
    | some e => restoreExps (restorePrefix n) n n (some e) s

/-! What compiling and restoring leave alone. -/

section
variable {s s' s'' : Sess F} {fuel n : ℕ}

theorem prefixExps_ind {Q : Sess F → Prop} (hnew : ∀ s, Q s → Q s.newExp)
    (hadd : ∀ s e ts, Q s → Q (s.addInfix e ts)) (hput : ∀ s e m, Q s → Q (s.put e m))
    {es : List (Option (List (Tok F)))} (h : Q s) (hs : prefixExps fuel es s = some s') : Q s' := by
  induction es generalizing s with
  | nil => exact some.inj hs ▸ h
  | cons ts es ih =>
    cases ts with
    | none => exact some.inj hs ▸ hnew s h
    | some ts =>
      have hts := hadd _ s.nexp ts (hnew s h)
      rw [prefixExps] at hs
      split at hs
      · cases hs
      · exact ih (hput _ _ _ hts) hs
      · exact some.inj hs ▸ hput _ _ _ hts

def Resets (s s' : Sess F) : Prop :=
  ∃ tok next, ∃ (first cur : ℕ → Option ℕ), s' = { s with
    tok, next
    exps := fun e => { s.exps e with prefixfirst := first e }
    pres := fun p => { s.pres p with exp := cur p } }

theorem Resets.refl (s : Sess F) : Resets s s :=
  ⟨s.tok, s.next, fun e => (s.exps e).prefixfirst, fun p => (s.pres p).exp, rfl⟩

theorem Resets.trans (h : Resets s s') (h' : Resets s' s'') : Resets s s'' := by
  obtain ⟨_, _, _, _, rfl⟩ := h
  obtain ⟨_, _, _, _, rfl⟩ := h'
  exact ⟨_, _, _, _, rfl⟩

theorem resets_setCur (s : Sess F) (c : Option ℕ) : Resets s (s.setCur c) := by
  refine ⟨s.tok, s.next, fun e => (s.exps e).prefixfirst, fun p => ((s.setCur c).pres p).exp, ?_⟩
  simp only [setCur]
  congr 1
  funext p
  by_cases hp : p = s.pre <;> simp [hp]

theorem resets_put (s : Sess F) (e : ℕ) (tok : ℕ → Tok F) (next : ℕ → Option ℕ) (first : Option ℕ) :
    Resets s (s.put e { s.mach e with tok, next, prefixfirst := first }) := by
  refine ⟨tok, next, fun a => if a = e then first else (s.exps a).prefixfirst,
    fun p => (s.pres p).exp, ?_⟩
  simp only [put, mach]
  congr 1
  funext a
  by_cases ha : a = e
  · subst ha
    simp
  · simp [ha]

variable [Fnum F]

theorem restoreWalk_eq {p : Option ℕ} {m m' : Mach F}
    (h : Mach.restoreWalk fuel p m = some m') : ∃ tok next, m' = { m with tok, next } := by
  induction fuel generalizing p m with
  | zero => cases h
  | succ fuel ih =>
    cases p with
    | none => exact ⟨m.tok, m.next, (some.inj h).symm⟩
    | some ent =>
      obtain ⟨tok, next, rfl⟩ := ih h
      exact ⟨tok, next, rfl⟩

theorem resets_restoreExps {rec : Sess F → Option (Sess F)} {c : Option ℕ}
    (hrec : ∀ {a b}, rec a = some b → Resets a b) (h : restoreExps rec fuel n c s = some s') : Resets s s' := by
  induction n generalizing c s with
  | zero => cases h
  | succ n ih =>
    cases c with
    | none => exact some.inj h ▸ resets_setCur s none
    | some e =>
      obtain ⟨s2, hs2, hrest⟩ := bind_eq_some_iff.1 h
      obtain ⟨m, hm, hbranch⟩ := bind_eq_some_iff.1 hs2
      refine Resets.trans ?_ (ih hrest)
      obtain ⟨tok, next, rfl⟩ := restoreWalk_eq hm
      have hput := (resets_setCur s (some e)).trans (resets_put _ e tok next (s.exps e).saveprefixfirst)
      dsimp only at hbranch
      split at hbranch
      · exact some.inj hbranch ▸ hput
      · obtain ⟨s3, hs3, rfl⟩ := map_eq_some_iff.1 hbranch
        obtain ⟨_, _, _, _, rfl⟩ := hrec hs3
        exact hput.trans ⟨_, _, _, _, rfl⟩

theorem resets_restorePrefix (h : restorePrefix n s = some s') : Resets s s' := by
  induction n generalizing s s' with
  | zero => cases h
  | succ n ih =>
    rw [restorePrefix] at h
    split at h
    · exact some.inj h ▸ .refl s
    · exact resets_restoreExps ih h

end
end Sess
end Prj.Ddlus
