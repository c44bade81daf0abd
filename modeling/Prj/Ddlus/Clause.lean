import Prj.Ddlus.Confine
import Prj.Ddlus.Eval
import Prj.Ddlus.Repeat

/-! The clauses of an `if` expression: a condition, its block and the function that decides. -/
namespace Prj.Ddlus
open Prj.Base Function List

namespace Reg
variable {F : Type} [Fnum F] {x : Ext F} {vars : List (Var F)} {r r' : Reg F} {ent t : ℕ}

theorem tok_step_of_notMem (h : r.step x vars ent = some r') (ht : t ∉ r.stk) : r'.tok t = r.tok t := by
  obtain ⟨-, rfl⟩ | ⟨t1, stk, -, hs, -, rfl⟩ | ⟨t1, t2, stk, -, hs, -, rfl⟩ := step_cases h
  · rfl
  · have hne : t ≠ t1 := fun heq => ht (by simp [hs, heq])
    simp only [step1, store, update_of_ne hne, look]
    split_ifs
    · rw [update_of_ne hne]
    · rfl
  · exact tok_step2_of_ne (fun heq => ht (by simp [hs, heq])) fun heq => ht (by simp [hs, heq])

theorem tok_run_of_notMem {xs : List ℕ} (h : r.run x vars xs = some r') (ht : t ∉ r.stk)
    (hxs : t ∉ xs) : r'.tok t = r.tok t := by
  induction xs generalizing r with
  | nil => rw [← Option.some.inj h]
  | cons ent xs ih =>
    obtain ⟨r1, hr1, hrun⟩ := Option.bind_eq_some_iff.1 h
    simp only [mem_cons, not_or] at hxs
    have ht1 : t ∉ r1.stk := fun hin => by
      rcases mem_cons.1 (mem_stk_of_step hr1 hin) with heq | hin
      · exact hxs.1 heq
      · exact ht hin
    rw [ih hrun ht1 hxs.2, tok_step_of_notMem hr1 ht]

end Reg

structure Clause where
  cond : List ℕ
  block : ℕ
  fn : ℕ

def Clause.toks (c : Clause) : List ℕ := c.cond ++ [c.block, c.fn]

def elseToks : Option (ℕ × ℕ) → List ℕ
  | none => []
  | some p => [p.1, p.2]

def ifToks (cs : List Clause) (els : Option (ℕ × ℕ)) : List ℕ :=
  cs.flatMap Clause.toks ++ elseToks els

variable {F : Type} {tok tok' : ℕ → Tok F} {ent block fn : ℕ}

structure BlockOk (tok : ℕ → Tok F) (block fn : ℕ) : Prop where
  block_type : (tok block).type = .block
  block_id : (tok block).id = .block
  fn_type : (tok fn).type = .func

/-- The condition is made of numbers, variables and operators, which have not been read yet, and
leaves one value. -/
structure ClauseOk (tok : ℕ → Tok F) (c : Clause) : Prop extends BlockOk tok c.block c.fn where
  table : ∀ t ∈ c.cond, (tok t).FromTable
  value : ∀ t ∈ c.cond, (tok t).id.IsOperand = true ∨ (tok t).id.IsOp = true
  fresh : ∀ t ∈ c.cond, (tok t).res = false
  depth : c.cond.foldlM (Ledger.depthStep fun t => (tok t).id) 0 = some 1

theorem BlockOk.congr (h : BlockOk tok block fn)
    (hb : tok' block = tok block) (hf : tok' fn = tok fn) : BlockOk tok' block fn :=
  ⟨by rw [hb]; exact h.block_type, by rw [hb]; exact h.block_id, by rw [hf]; exact h.fn_type⟩

theorem ClauseOk.congr {c : Clause} (h : ClauseOk tok c) (heq : ∀ t ∈ c.toks, tok' t = tok t) : ClauseOk tok' c := by
  have hcond : ∀ t ∈ c.cond, tok' t = tok t := fun t ht => heq t (by simp [Clause.toks, ht])
  refine ⟨h.toBlockOk.congr (heq _ (by simp [Clause.toks])) (heq _ (by simp [Clause.toks])),
    fun t ht => ?_, fun t ht => ?_, fun t ht => ?_, ?_⟩
  · rw [hcond t ht]
    exact h.table t ht
  · rw [hcond t ht]
    exact h.value t ht
  · rw [hcond t ht]
    exact h.fresh t ht
  · rw [Sess.depth_congr fun t ht => by rw [hcond t ht]]
    exact h.depth

namespace Sess

/-- Only tokens of expression `e` were executed, and what it can reach stays among `T`. -/
structure Walked (T : Set ℕ) (e : ℕ) (s s' : Sess F) : Prop where
  same : ∃ tok next prenext first top n cond k, s' = { s with
    tok, next, prenext, ncalc := n, log := List.replicate k (.exec e) ++ s.log
    exps := update s.exps e { s.exps e with prefixfirst := first, stacktop := top, ifcond := cond } }
  stays : Stays T e s s'

namespace Walked
variable {T : Set ℕ} {e : ℕ} {s s' s'' : Sess F}

theorem refl (T : Set ℕ) (e : ℕ) (s : Sess F) : Walked T e s s :=
  ⟨⟨s.tok, s.next, s.prenext, (s.exps e).prefixfirst, (s.exps e).stacktop, s.ncalc,
    (s.exps e).ifcond, 0, by simp⟩, .refl T e s⟩

theorem trans (h : Walked T e s s') (h' : Walked T e s' s'') : Walked T e s s'' := by
  refine ⟨?_, h.stays.trans h'.stays⟩
  obtain ⟨_, _, _, _, _, _, _, k, rfl⟩ := h.same
  obtain ⟨tok, next, prenext, first, top, n, cond, k', rfl⟩ := h'.same
  refine ⟨tok, next, prenext, first, top, n, cond, k' + k, ?_⟩
  simp [← replicate_append_replicate]

theorem of_ran {x : Ext F} {xs : List ℕ} (hx : x.Local) (h : Ran x e xs s s') : Walked T e s s' := by
  refine ⟨?_, h.stays hx T⟩
  obtain ⟨tok, next, prenext, first, top, n, log, hs'⟩ := h.same
  have hlog := h.log_eq
  subst hs'
  exact ⟨tok, next, prenext, first, top, n, (s.exps e).ifcond, xs.length, by simpa using hlog⟩

theorem advance (hfirst : (s.exps e).prefixfirst = some ent) : Walked T e s (s.advance e ent) :=
  ⟨⟨_, _, _, _, (s.exps e).stacktop, _, (s.exps e).ifcond, 1, rfl⟩, .advance hfirst⟩

theorem put {m : Mach F} (h : Mach.Works (s.mach e) m)
    (hk : Mach.Keeps T Set.univ (s.mach e) (s.mach e) → Mach.Keeps T Set.univ (s.mach e) m) :
    Walked T e s (s.put e m) := by
  refine ⟨?_, .put hk⟩
  obtain ⟨tok, next, top, n, rfl⟩ := h
  exact ⟨tok, next, s.prenext, (s.exps e).prefixfirst, top, n, (s.exps e).ifcond, 0, rfl⟩

theorem setIfcond (c : IfCond) : Walked T e s (s.setIfcond e c) := by
  have hmach : (s.setIfcond e c).mach e = s.mach e := by simp [Sess.setIfcond, mach]
  refine ⟨⟨_, _, _, (s.exps e).prefixfirst, (s.exps e).stacktop, _, c, 0, rfl⟩, fun h => ?_⟩
  rw [hmach]
  exact ⟨h, fun _ _ => ⟨rfl, rfl, rfl⟩⟩

theorem cur (h : Walked T e s s') : s'.cur = s.cur := by
  obtain ⟨_, _, _, _, _, _, _, _, rfl⟩ := h.same
  rfl

theorem blocks (h : Walked T e s s') (a : ℕ) : blocksOf a s'.log = blocksOf a s.log := by
  obtain ⟨_, _, _, _, _, _, _, k, rfl⟩ := h.same
  clear h
  induction k with
  | zero => rfl
  | succ k ih => simpa [replicate_succ, blocksOf_cons, Event.blockOf] using ih

end Walked

/-- The tokens `xs` of expression `e` are still to come, as they were in `s₀`, and the stack is
empty. -/
structure At (T : Set ℕ) (s₀ : Sess F) (e : ℕ) (xs : List ℕ) (s : Sess F) : Prop where
  walked : Walked T e s₀ s
  cur : s₀.cur = some e
  holds : Mach.Holds s₀.vars (s.mach e) ⟨s.tok, [], s.ncalc⟩ xs
  tok : ∀ t ∈ xs, s.tok t = s₀.tok t

variable [Fnum F] {x : Ext F} {ci : Sess F → Res F Bool} {fuel e w n : ℕ} {T : Set ℕ}
  {s₀ s s' : Sess F} {c : Clause} {rest cond : List ℕ}

def condVal (x : Ext F) (s : Sess F) (cond : List ℕ) : Option F :=
  s.result (Reg.value x s.vars s.tok) cond

theorem condVal_congr (hvars : s'.vars = s.vars)
    (h : ∀ t ∈ cond, s'.tok t = s.tok t) : condVal x s' cond = condVal x s cond := by
  have hval : ∀ t ∈ cond, Reg.value x s'.vars s'.tok t = Reg.value x s.vars s.tok t := by
    intro t ht
    rw [Reg.value, Reg.value, Reg.resolved, Reg.resolved, h t ht, hvars]
  rw [condVal, condVal, result, result, ledger, ledger, hvars]
  rw [hvars] at hval
  rw [Ledger.run_congr fun t ht => ⟨by rw [h t ht], fun _ => hval t ht⟩]

variable (x ci fuel) (hx : x.Local) {vars : List (Var F)} {r : Reg F}
include hx

theorem exists_pushBlock (hcur : s.cur = some e)
    (h : Mach.Holds vars (s.mach e) r (block :: rest)) (hty : (r.tok block).type = .block) :
    ∃ s', (∀ n, runTokens x ci fuel (n + 1) s = runTokens x ci fuel n s') ∧ Walked T e s s' ∧
      (s'.exps e).ifcond = (s.exps e).ifcond ∧ Mach.Holds vars (s'.mach e) { r with stk := block :: r.stk } rest := by
  have hfirst : (s.exps e).prefixfirst = some block := h.todo.1
  have hnot : block ∉ r.stk ++ rest := by
    have hn := h.nodup
    rw [nodup_middle] at hn
    exact (nodup_cons.1 hn).1
  have hadv := holds_advance h
  have htok : ((s.advance e block).tok block).type = .block := by
    have heq : s.tok = r.tok := h.tok_eq
    rw [tok_advance, heq, hty]
  have hran : Ran x e [block] s ((s.advance e block).put e (((s.advance e block).mach e).pushCalc block)) :=
    ran_advance hfirst ⟨_, _, _, _, rfl⟩ fun _ _ _ _ hT hk => hk.pushCalc hT
  refine ⟨_, fun n => ?_, .of_ran hx hran, ?_, ?_⟩
  · simp only [runTokens, hcur, hfirst, runTok, htok, Res.bind]
  · simp [put, advance, record]
  · rw [mach_put]
    exact ⟨hadv.tok_eq, hadv.ncalc_eq, hadv.vars_eq, hadv.todo.update fun hin => hnot (by simp [hin]),
      hadv.stack.push fun hin => hnot (by simp [hin]), nodup_cons.2 ⟨hnot, hadv.nodup⟩⟩

theorem exists_cond (h : At T s₀ e (c.cond ++ rest) s) (hc : ClauseOk s₀.tok c) :
    ∃ v w s' r, condVal x s₀ c.cond = some v ∧
      (∀ n, runTokens x ci fuel (n + c.cond.length) s = runTokens x ci fuel n s') ∧
      Walked T e s s' ∧ (s'.exps e).ifcond = (s.exps e).ifcond ∧
      Mach.Holds s₀.vars (s'.mach e) r rest ∧ r.stk = [w] ∧ Reg.value x s₀.vars r.tok w = v ∧
      (r.tok w).id ≠ .brOpen ∧ ∀ t ∈ rest, r.tok t = s₀.tok t := by
  have hvars : s.vars = s₀.vars := h.holds.vars_eq
  have htok : ∀ t ∈ c.cond, s.tok t = s₀.tok t := fun t ht => h.tok t (by simp [ht])
  have hvalue : ∀ t ∈ c.cond, (s.tok t).id.IsOperand = true ∨ (s.tok t).id.IsOp = true :=
    fun t ht => htok t ht ▸ hc.value t ht
  -- the ledger of the condition gives its value
  have hdepth : c.cond.foldlM (Ledger.depthStep fun t => (s.tok t).id) 0 = some 1 :=
    (depth_congr fun t ht => by rw [htok t ht]).trans hc.depth
  obtain ⟨c', hc', hlen⟩ : ∃ c', Ledger.empty.run (fun t => (s.tok t).id) (Reg.value x s.vars s.tok)
      (varVal s.vars ansVarName) c.cond = some c' ∧ c'.stk.length = 1 :=
    Ledger.run_of_depth _ _ hdepth
  obtain ⟨⟨w, v⟩, hstk⟩ := length_eq_one_iff.1 hlen
  have hval : condVal x s₀ c.cond = some v := by
    rw [← condVal_congr hvars htok, condVal, result, ledger, hc']
    simp [hstk]
  have hstart : Ledger.Tracks x s.vars s.tok ⟨s.tok, [], s.ncalc⟩ Ledger.empty (c.cond ++ rest) :=
    ⟨rfl, rfl, by simp [Ledger.empty], fun _ _ => rfl, h.holds.nodup⟩
  obtain ⟨r, hr, htracks⟩ := hstart.run hc'
  have hrstk : r.stk = [w] := by simp [htracks.stk_eq, hstk]
  have hholds := h.holds
  rw [← hvars] at hholds ⊢
  obtain ⟨s1, hs1, h1, hran⟩ : ∃ s1, (∀ n, runTokens x ci fuel (n + c.cond.length) s = runTokens x ci fuel n s1) ∧
        Mach.Holds s.vars (s1.mach e) r rest ∧ Ran x e c.cond s s1 :=
    runTokens_run ci fuel (h.walked.cur.trans h.cur) hholds
      (fun t ht => (htok t ht ▸ hc.table t ht : (s.tok t).FromTable)) hvalue (by simp) hr
  refine ⟨v, w, s1, r, hval, hs1, .of_ran hx hran, ?_, h1, hrstk,
    htracks.value_eq (p := (w, v)) (by simp [hstk]), ?_, fun t ht => ?_⟩
  · obtain ⟨_, _, _, _, _, _, _, rfl⟩ := hran.same
    simp
  · rw [htracks.id_eq]
    have hmem := (Reg.mem_stk_of_run hr (by simp [hrstk] : w ∈ r.stk)).resolve_right (by simp)
    intro heq
    simpa [heq, TokId.IsOperand, TokId.IsOp] using hvalue w hmem
  · have hn : (c.cond ++ rest).Nodup := h.holds.nodup
    have hnot : t ∉ c.cond := fun hin => (nodup_append.1 hn).2.2 t hin t ht rfl
    rw [Reg.tok_run_of_notMem hr (by simp) hnot]
    exact h.tok t (by simp [ht])

theorem exists_atFn (h : At T s₀ e (c.toks ++ rest) s) (hc : ClauseOk s₀.tok c) :
    ∃ v w s' r, condVal x s₀ c.cond = some v ∧
      (∀ n, runTokens x ci fuel (n + 1 + c.cond.length) s = runTokens x ci fuel n s') ∧
      Walked T e s s' ∧ (s'.exps e).ifcond = (s.exps e).ifcond ∧
      Mach.Holds s₀.vars (s'.mach e) r (c.fn :: rest) ∧ r.stk = [c.block, w] ∧
      Reg.value x s₀.vars r.tok w = v ∧ (r.tok w).id ≠ .brOpen ∧ ∀ t ∈ c.block :: c.fn :: rest, r.tok t = s₀.tok t := by
  have hlist : c.toks ++ rest = c.cond ++ (c.block :: c.fn :: rest) := by simp [Clause.toks]
  rw [hlist] at h
  obtain ⟨v, w, s1, r, hval, hs1, hw1, hif1, h1, hstk, hv, hid, htok⟩ :=
    exists_cond x ci fuel hx h hc
  have hty : (r.tok c.block).type = .block := by
    rw [htok c.block (by simp)]
    exact hc.block_type
  obtain ⟨s2, hs2, hw2, hif2, h2⟩ := exists_pushBlock x ci fuel hx (hw1.cur.trans (h.walked.cur.trans h.cur)) h1 hty
  refine ⟨v, w, s2, { r with stk := c.block :: r.stk }, hval, fun n => ?_, hw1.trans hw2,
    hif2.trans hif1, h2, by simp [hstk], hv, hid, htok⟩
  rw [hs1, hs2]

/-- `if` and `elseif` when they look at their condition. -/
def Decides (id : TokId) (cond : IfCond) : Prop :=
  id = .if_ ∧ cond = .noif ∨ id = .elseif ∧ cond = .false_

/-- What a function that returns `b` lets the loop do. -/
def goOn (x : Ext F) (ci : Sess F → Res F Bool) (fuel n : ℕ) (b : Bool) (s : Sess F) : Res F Flow :=
  if b then runTokens x ci fuel n s else (some (.ret false), s)

omit [Fnum F] hx in
theorem ifcond_advance (s : Sess F) (e ent : ℕ) : ((s.advance e ent).exps e).ifcond = (s.exps e).ifcond := by
  simp [advance, record, put]

omit hx in
theorem runTokens_func (hcur : s.cur = some e)
    (hfirst : (s.exps e).prefixfirst = some ent) (hty : (s.tok ent).type = .func) :
    runTokens x ci fuel (n + 1) s = ((s.advance e ent).runFn x ci fuel e ent).bind (goOn x ci fuel n) := by
  have hty' : ((s.advance e ent).tok ent).type = .func := hty
  simp only [runTokens, hcur, hfirst, runTok, hty']
  rcases (s.advance e ent).runFn x ci fuel e ent with ⟨_ | b, s'⟩
  · rfl
  · cases b <;> rfl

omit hx in
theorem runFn_decides (h : Decides (s.tok ent).id (s.exps e).ifcond) :
    s.runFn x ci fuel e ent = s.runIf x ci fuel e := by
  rcases h with ⟨hid, hif⟩ | ⟨hid, hif⟩
  · simp [runFn, hid, ifFn, hif]
  · simp [runFn, hid, elseIfFn, hif]

omit hx in
theorem exists_runIf (h : Mach.Holds vars (s.mach e) r rest) (hstk : r.stk = [block, w])
    (hblock : (r.tok block).id ≠ .brOpen) (hw : (r.tok w).id ≠ .brOpen) :
    ∃ s', s.runIf x ci fuel e = (if truth (Reg.value x vars r.tok w) then
        s'.runBranch x ci fuel e block .true_ else (some true, s'.setIfcond e .false_)) ∧
      Walked T e s s' ∧ (s'.exps e).ifcond = (s.exps e).ifcond ∧
      Mach.Holds vars (s'.mach e) ⟨s'.tok, [], s'.ncalc⟩ rest ∧ ∀ t ≠ w, s'.tok t = r.tok t := by
  obtain ⟨m1, hm1, h1, hw1⟩ := Mach.poptok_spec h hstk hblock
  obtain ⟨m2, hm2, h2, hw2⟩ := Mach.poptok_spec h1 rfl hw
  obtain ⟨m3, hm3, hw3, h3⟩ := Mach.tokval_spec (x := x) h2 w
  have hkeeps : Mach.Keeps T Set.univ (s.mach e) (s.mach e) → Mach.Keeps T Set.univ (s.mach e) m3 := by
    intro hk
    have hk1 := hk.poptok
    rw [hm1] at hk1
    have hk2 := hk1.1.poptok
    rw [hm2] at hk2
    have hk3 := hk2.1.tokval (x := x) (ptrIn_some.1 hk2.2)
    rwa [hm3] at hk3
  refine ⟨s.put e m3, ?_, .put (hw1.trans (hw2.trans hw3)) hkeeps, by simp [put], ?_, fun t ht => ?_⟩
  · simp only [runIf, popOr, hm1, mach_put, hm2, put_put, hm3]
  · rw [mach_put]
    exact ⟨rfl, rfl, h3.vars_eq, h3.todo, h3.stack, h3.nodup⟩
  · change m3.tok t = r.tok t
    rw [h3.tok_eq]
    exact update_of_ne ht _ _

/-- A clause that is looked at: nothing is run if its condition is false, and its block if it is
true. -/
theorem exists_clause (h : At T s₀ e (c.toks ++ rest) s) (hc : ClauseOk s₀.tok c)
    (hd : Decides (s₀.tok c.fn).id (s.exps e).ifcond) : ∃ v s', condVal x s₀ c.cond = some v ∧ At T s₀ e rest s' ∧
      (s'.exps e).ifcond = (s.exps e).ifcond ∧ s'.tok c.block = s₀.tok c.block ∧
      ∀ n, runTokens x ci fuel (n + c.toks.length) s = (if truth v then
        s'.runBranch x ci fuel e c.block .true_ else (some true, s'.setIfcond e .false_)).bind (goOn x ci fuel n) := by
  obtain ⟨v, w, s1, r, hval, hs1, hw1, hif1, h1, hstk, hv, hid, htok⟩ :=
    exists_atFn x ci fuel hx h hc
  have hcur1 : s1.cur = some e := hw1.cur.trans (h.walked.cur.trans h.cur)
  have hfirst1 : (s1.exps e).prefixfirst = some c.fn := h1.todo.1
  have htok1 : s1.tok = r.tok := h1.tok_eq
  have hfn : s1.tok c.fn = s₀.tok c.fn := by rw [htok1]; exact htok c.fn (by simp)
  have hblock : r.tok c.block = s₀.tok c.block := htok c.block (by simp)
  have hnodup := h1.nodup
  rw [hstk] at hnodup
  have hwb : c.block ≠ w := by
    rintro heq
    simp [heq] at hnodup
  have hrest : ∀ t ∈ rest, t ≠ w := by
    rintro t ht rfl
    simp [ht] at hnodup
  have hd1 : Decides ((s1.advance e c.fn).tok c.fn).id ((s1.advance e c.fn).exps e).ifcond := by
    rw [tok_advance, hfn, ifcond_advance, hif1]
    exact hd
  obtain ⟨s2, hs2, hw2, hif2, h2, htok2⟩ := exists_runIf x ci fuel (holds_advance h1) hstk
    (by simp [hblock, hc.block_id]) hid
  refine ⟨v, s2, hval, ⟨h.walked.trans (hw1.trans ((Walked.advance hfirst1).trans hw2)), h.cur, h2, ?_⟩,
    ?_, ?_, fun n => ?_⟩
  · intro t ht
    rw [htok2 t (hrest t ht)]
    exact htok t (by simp [ht])
  · rw [hif2, ifcond_advance, hif1]
  · rw [htok2 c.block hwb, hblock]
  · have hlen : n + c.toks.length = n + 1 + 1 + c.cond.length := by
      simp only [Clause.toks, length_append, length_cons, length_nil]
      omega
    rw [hlen, hs1, runTokens_func x ci fuel hcur1 hfirst1 (by rw [hfn]; exact hc.fn_type),
      runFn_decides x ci fuel hd1, hs2, hv]

end Sess
end Prj.Ddlus
