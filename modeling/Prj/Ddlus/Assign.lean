import Prj.Ddlus.Eval

/-! The operators `+=` and `-=` (`calc_basic` in `ddlus/console/calc.c`). The code of `+=` runs into
that of `-=`. -/
namespace Prj.Ddlus
open Prj.Base Function List

variable {F : Type} [Fnum F] {x : Ext F} {vars : List (Var F)} {name : List Char} {i : ℕ}

structure UserVar (vars : List (Var F)) (name : List Char) (i : ℕ) (v : Var F) : Prop where
  found : varPtr vars name = some i
  get : vars[i]? = some v
  type : v.type = .norm
  unlocked : v.lock = false

namespace UserVar
variable {v : Var F}

omit [Fnum F] in
theorem putVal_self (h : UserVar vars name i v) (val : F) : UserVar (putVal vars i val) name i { v with val } :=
  ⟨by rw [varPtr_putVal, h.found], by simp [putVal, h.get], h.type, h.unlocked⟩

end UserVar

namespace Mach
variable {m : Mach F} {r : Reg F} {rest stk : List ℕ} {t1 t2 ent : ℕ} {v : Var F}

omit [Fnum F] in
theorem Holds.setVars (h : Holds vars m r rest) (vars' : List (Var F)) : Holds vars' { m with vars := vars' } r rest :=
  { h with vars_eq := rfl }

omit [Fnum F] in
theorem storeEq_spec (t2 : ℕ) (h : Holds vars m r rest) (hid : (r.tok t2).id = .var)
    (hv : UserVar vars (r.tok t2).str i v) (ans : F) :
    storeEq x m (some t2) ans = { m with vars := putVal vars i ans } := by
  rw [← h.tok_eq] at hid hv
  simp [storeEq, hid, h.vars_eq, setVarval, hv.found, hv.get, hv.type, hv.unlocked]

theorem basicOp_eq_spec {id : TokId} (v2 : F) (h : Holds vars m r rest)
    (hop : id = .plusEq ∨ id = .minusEq) (hid : (r.tok t2).id = .var)
    (hv : UserVar vars (r.tok t2).str i v) (hne : t2 ≠ t1) (hin : t2 ∉ r.stk ++ rest) :
    ∃ m', basicOp x m id t1 (some t2) v2 = some (true, m') ∧
      Holds (putVal vars i (Fnum.sub v2 (Reg.value x vars r.tok t1))) m'
        (Reg.store { r with tok := update r.tok t1 (Reg.resolved x vars r.tok t1) } t2
          (Fnum.sub v2 (Reg.value x vars r.tok t1))) rest := by
  obtain ⟨m1, hm1, -, h1⟩ := tokval_spec (x := x) h t1
  have htok2 : update r.tok t1 (Reg.resolved x vars r.tok t1) t2 = r.tok t2 := update_of_ne hne _ _
  have hstore := fun ans => storeEq_spec t2 (x := x) h1 (by simpa [htok2] using hid) (by simpa [htok2] using hv) ans
  have hin : (some t2).getD t1 ∉ r.stk ++ rest := hin
  have hdone := fun ans => (result_spec t1 ans (h1.setVars (putVal vars i ans)) hin).1
  rcases hop with rfl | rfl
  · -- the first value stored is overwritten: the right operand is read a second time
    have hfirst := h1.setVars (putVal vars i (Fnum.add v2 (Reg.value x vars r.tok t1)))
    have hagain : ∀ vs, ({ m1 with vars := vs } : Mach F).tokval x t1 =
        (Reg.value x vars r.tok t1, { m1 with vars := vs }) := by
      intro vs
      have hres : (m1.tok t1).res = true := by simp [h1.tok_eq, Reg.resolved]
      have hval : (m1.tok t1).signed = Reg.value x vars r.tok t1 := by
        simp [h1.tok_eq, Reg.value]
      rw [← hval]
      exact tokval_of_res (m := { m1 with vars := vs }) hres
    have hsecond := storeEq_spec t2 (x := x) hfirst (by simpa [htok2] using hid)
      (by simpa [htok2] using hv.putVal_self _) (Fnum.sub v2 (Reg.value x vars r.tok t1))
    have hput : ∀ a b : F, putVal (putVal vars i a) i b = putVal vars i b := by
      intro a b
      rw [putVal, putVal, modify_modify_eq]
      rfl
    refine ⟨_, ?_, hdone _⟩
    simp only [basicOp, arith, hm1, hstore, hagain, hsecond, hput]
  · refine ⟨_, ?_, hdone _⟩
    simp only [basicOp, arith, hm1, hstore]

theorem calcTok_eq_spec (h : Holds vars m r rest) (hs : r.stk = t1 :: t2 :: stk)
    (ht : (r.tok ent).FromTable) (hop : (r.tok ent).id = .plusEq ∨ (r.tok ent).id = .minusEq)
    (hid : (r.tok t2).id = .var) (hv : UserVar vars (r.tok t2).str i v) (hbr : ∀ t ∈ r.stk, (r.tok t).id ≠ .brOpen) :
    ∃ m' r', calcTok x m ent = some (true, m') ∧ r'.stk = t2 :: stk ∧ r'.ncalc = r.ncalc + 1 ∧ (r'.tok t2).id = .var ∧
      Reg.value x (putVal vars i (Fnum.sub (Reg.value x vars r.tok t2) (Reg.value x vars r.tok t1)))
        r'.tok t2 = Fnum.sub (Reg.value x vars r.tok t2) (Reg.value x vars r.tok t1) ∧
      Holds (putVal vars i (Fnum.sub (Reg.value x vars r.tok t2) (Reg.value x vars r.tok t1))) m' r' rest := by
  obtain ⟨m1, m2, m3, hm1, hm2, hm3, -, -, h3⟩ := pop2_spec (x := x) h hs hbr
  have hn := h.nodup
  have hne : t2 ≠ t1 := by grind
  have hin : t2 ∉ stk ++ rest := by grind
  have hshape2 : (Reg.resolved x vars r.tok t2).shape = (r.tok t2).shape := Tok.shape_resolve _ _ _
  have hent : (m3.tok ent).id = (r.tok ent).id := by
    rw [h3.tok_eq]
    exact Tok.id_eq_of_shape (Tok.shape_update hshape2 ent)
  have hid2 : (Reg.resolved x vars r.tok t2).id = .var := (Tok.id_eq_of_shape hshape2).trans hid
  have hstr2 : (Reg.resolved x vars r.tok t2).str = (r.tok t2).str := by
    simp only [Tok.shape, Prod.mk.injEq] at hshape2
    exact hshape2.2.2.2.1
  obtain ⟨m', hm', h'⟩ := basicOp_eq_spec (x := x) (Reg.value x vars r.tok t2) h3 hop
    (by simpa using hid2) (by simpa [hstr2] using hv) hne hin
  rw [Reg.value_update x vars hne.symm] at h'
  have hty : (r.tok ent).type = .mathBasic := by
    rw [ht.1]
    rcases hop with heq | heq <;> simp [heq, TokId.type]
  refine ⟨m', _, ?_, rfl, rfl, ?_, Reg.value_store_self _ _ _, h'⟩
  · simp [calcTok, h.tok_eq, hty, calcBasic, hm1, hm2, hm3, hent, hm', printed]
  · refine (Tok.id_eq_of_shape (Reg.shape_store _ _ _ _)).trans ?_
    simp [update_of_ne hne, hid2]

end Mach

namespace Sess
variable {s s' : Sess F} {e fuel v op t k : ℕ} {q : Expr ℕ} {ys : List ℕ} {u : Var F}

/-- The tokens are `v += ys` or `v -= ys`, where `ys` calculates a value and `v` is a variable of the
user that is not read yet. -/
structure UpdateExp (s : Sess F) (v op : ℕ) (ys : List ℕ) (i : ℕ) (u : Var F) : Prop where
  table : ∀ t ∈ v :: op :: ys, (s.tok t).FromTable
  op_id : (s.tok op).id = .plusEq ∨ (s.tok op).id = .minusEq
  right : WellFormed (fun t => (s.tok t).id) ys
  noassign : ∀ t ∈ ys, (s.tok t).id.Assigns = false
  var_id : (s.tok v).id = .var
  unread : (s.tok v).res = false ∧ (s.tok v).neg = false
  user : UserVar s.vars (s.tok v).str i u
  ans : HasAns s.vars
  ncalc : 0 ≤ s.ncalc

namespace UpdateExp
variable (h : UpdateExp s v op ys i u)
include h

omit [Fnum F] in
theorem parses (hq : Parses (fun t => (s.tok t).id) q ys) :
    Parses (fun t => (s.tok t).id) (.bin (.leaf v) op q) (v :: op :: ys) where
  toks := by simp [Expr.toks, hq.toks]
  shaped := by
    refine ⟨?_, ?_, hq.shaped⟩
    · simp [Expr.Shaped, h.var_id, TokId.kind, TokId.type]
    · rcases h.op_id with heq | heq <;> simp [heq, TokId.kind, TokId.type]
  respects := by
    refine ⟨trivial, hq.respects, by simp [Expr.top], fun o ho => ?_⟩
    have hin : o ∈ ys := hq.toks ▸ Expr.mem_toks_of_top ho
    have hop : (s.tok op).id.pred = 201 := by
      rcases h.op_id with heq | heq <;> simp [heq, TokId.pred]
    have hmem := h.right.mem hin
    have hno := h.noassign o hin
    simp only [hop]
    revert hmem hno
    cases (s.tok o).id <;>
      simp [TokId.IsOperand, TokId.IsBinary, TokId.Assigns, TokId.type, TokId.pred]

omit [Fnum F] in
theorem plain (ht : t ∈ v :: op :: ys) : (s.tok t).id.Plain := by
  rcases mem_cons.1 ht with rfl | ht
  · simp [h.var_id, TokId.Plain, TokId.type]
  · rcases mem_cons.1 ht with rfl | ht
    · rcases h.op_id with heq | heq <;> simp [heq, TokId.Plain, TokId.type]
    · exact h.right.plain ht

theorem value_var : Reg.value x s.vars s.tok v = u.val := by
  have hval : varVal s.vars (s.tok v).str = u.val := by
    simp [varVal, h.user.found, h.user.get, h.user.type]
  simp [Reg.value, Reg.resolved, Tok.resolve, h.unread, h.var_id, Tok.signed, hval]

end UpdateExp

section
variable (x : Ext F) (ci : Sess F → Res F Bool) (h : UpdateExp s v op ys i u)
  (hq : Parses (fun t => (s.tok t).id) q ys) (hcur : s.cur = some e) (hstack : (s.exps e).stacktop = none)
  (hpost : Chain s.next (s.exps e).saveprefixfirst (v :: (q.post ++ [op])))
include h hq hcur hstack hpost

theorem runTokens_right (fuel : ℕ) : ∃ s' r w, (∀ n, runTokens x ci fuel (n + (q.post.length + 1)) (s.ready e) =
        runTokens x ci fuel n s') ∧ s'.cur = some e ∧ Mach.Holds s.vars (s'.mach e) r [op] ∧
      r.stk = [w, v] ∧ (∀ t ∈ r.stk, (r.tok t).id ≠ .brOpen) ∧ r.tok v = s.tok v ∧
      r.tok op = s.tok op ∧ 0 ≤ r.ncalc ∧ Reg.value x s.vars r.tok w =
        q.eval (Reg.value x s.vars s.tok) fun t => binOp (s.tok t).id := by
  have hmem : ∀ t ∈ q.post, t ∈ ys := fun t ht => hq.toks ▸ Expr.mem_toks_of_mem_post ht
  have hval := fun t ht => h.right.value_of_post h.noassign hq (t := t) ht
  have hshow : Reg.Shows x s.vars s.tok [v] ⟨s.tok, [v], s.ncalc⟩ [] (q.post ++ [op]) :=
    ⟨⟨[], rfl, rfl⟩, fun _ => rfl, fun _ _ => rfl, hpost.nodup⟩
  obtain ⟨r, hr, hshow⟩ := hshow.run hval (stackRun_post hq.shaped)
  obtain ⟨w, hstk, hw⟩ := hshow.single
  have hrun : Reg.run x s.vars ⟨s.tok, [], s.ncalc⟩ (v :: q.post) = some r := by
    have hty : (s.tok v).type ≠ .number := by
      rw [(h.table v (by simp)).1, h.var_id]
      decide
    simpa [Reg.run_cons, Reg.step, h.var_id, TokId.IsOp, hty] using hr
  have hvalue : ∀ t ∈ v :: q.post, (s.tok t).id.IsOperand = true ∨ (s.tok t).id.IsOp = true := by
    intro t ht
    rcases mem_cons.1 ht with rfl | ht
    · exact .inl (by simp [h.var_id, TokId.IsOperand])
    · exact (hval t ht).imp id And.left
  obtain ⟨s', hs', h', hran⟩ := runTokens_run ci fuel (s := s.ready e) (x := x) hcur (holds_ready hstack hpost)
    (fun t ht => h.table t (by grind)) hvalue (by simp) hrun
  refine ⟨s', r, w, hs', hran.cur_eq.trans hcur, h', hstk, fun t ht heq => ?_,
    hshow.fresh v (by simp), hshow.fresh op (by simp), ?_, hw⟩
  · rw [hshow.ids] at heq
    have hin := hvalue t ((Reg.mem_stk_of_run hrun ht).resolve_right (by simp))
    simp [heq, TokId.IsOperand, TokId.IsOp] at hin
  · have hcount := Reg.ncalc_run (fun t ht => h.table t (by simp [hmem t ht])) hr
    have := h.ncalc
    simp only at hcount
    omega

theorem runPrefix_update (hfuel : ys.length + 2 < fuel) :
    ∃ s' k, s.runPrefix x ci fuel = (some true, s') ∧ varPtr s.vars ansVarName = some k ∧
      s'.vars = putVal (putVal s.vars i (Fnum.sub u.val
          (q.eval (Reg.value x s.vars s.tok) fun t => binOp (s.tok t).id))) k
        (Fnum.sub u.val (q.eval (Reg.value x s.vars s.tok) fun t => binOp (s.tok t).id)) := by
  obtain ⟨s1, r, w, hs1, hcur1, h1, hstk, hbr, htokv, htokop, hcount, hw⟩ :=
    runTokens_right x ci h hq hcur hstack hpost fuel
  have hfirst1 : (s1.exps e).prefixfirst = some op := h1.todo.1
  have htabop := h.table op (by simp)
  obtain ⟨m, r2, hm, hstk2, hcount2, hid2, hval2, h2⟩ := Mach.calcTok_eq_spec (x := x)
    (i := i) (v := u) (holds_advance h1) hstk (by rwa [htokop])
    (by rw [htokop]; exact h.op_id) (by rw [htokv]; exact h.var_id)
    (by rw [htokv]; exact h.user) hbr
  have hleft : Reg.value x s.vars r.tok v = u.val := by
    rw [← h.value_var (x := x), Reg.value, Reg.resolved, htokv]
    rfl
  rw [hw, hleft] at hval2 h2
  have hty : (s1.tok op).type = .mathBasic := by
    have htok1 : s1.tok = r.tok := h1.tok_eq
    rw [htok1, htokop, htabop.1]
    rcases h.op_id with heq | heq <;> simp [heq, TokId.type]
  have hstep := runTokens_calc ci fuel hcur1 hfirst1 (by simp [hty]) hm
  have hcur2 : ((s1.advance e op).put e m).cur = some e := hcur1
  have hdone : (((s1.advance e op).put e m).exps e).prefixfirst = none := by
    simpa [put] using h2.todo
  have hloop : runTokens x ci fuel fuel (s.ready e) = (some .go, (s1.advance e op).put e m) := by
    have hlen : q.post.length ≤ ys.length := hq.toks ▸ q.length_post_le
    obtain ⟨k, hk⟩ : ∃ k, fuel = k + 1 + 1 + (q.post.length + 1) :=
      ⟨fuel - (q.post.length + 3), by omega⟩
    conv_lhs => arg 4; rw [hk]
    rw [hs1, hstep]
    simp only [runTokens, hcur2, hdone]
  obtain ⟨k, hk⟩ : ∃ k, varPtr s.vars ansVarName = some k := by
    obtain ⟨k, _, hk, -⟩ := h.ans
    exact ⟨k, hk⟩
  obtain ⟨m', hm', -, -⟩ := finish_value fuel (x := x) hcur2 (by rwa [mach_put]) hstk2
    (.inl rfl) (by simp [hid2]) (by omega) (by rw [hval2, setAnsvar, varPtr_putVal, hk]; rfl)
  exact ⟨_, k, (runPrefix_of_loop ci fuel hcur hstack hloop).trans hm', hk, rfl⟩

end

def updateFn (id : TokId) : F → F → F := if id = .plusEq then Fnum.add else Fnum.sub

/-- The value of the variable is updated and no other variable of the user changes. -/
def Updated (s s' : Sess F) (name : List Char) (i : ℕ) (val : F) : Prop :=
  varVal s'.vars name = val ∧ ∀ j u, j ≠ i → s.vars[j]? = some u → u.type ≠ .sys → s'.vars[j]? = some u

theorem updated_iff {d val : F}
    (hu : UserVar s.vars name i u) (ha : HasAns s.vars) (hk : varPtr s.vars ansVarName = some k)
    (hs' : s'.vars = putVal (putVal s.vars i d) k d) : Updated s s' name i val ↔ d = val := by
  obtain ⟨k', a, hk', hget, hsys⟩ := ha
  obtain rfl : k' = k := Option.some.inj (hk'.symm.trans hk)
  have hki : k' ≠ i := by
    rintro rfl
    obtain rfl := Option.some.inj (hget.symm.trans hu.get)
    simp [hu.type] at hsys
  have hval : varVal s'.vars name = d := by
    rw [hs', varVal_putVal_of_ne (by simpa [hu.found] using hki.symm)]
    exact varVal_putVal_self hu.found hu.get (by simp [hu.type])
  refine ⟨fun h => hval.symm.trans h.1, fun h => ⟨hval.trans h, fun j w hj hw hty => ?_⟩⟩
  have hkj : k' ≠ j := by
    rintro rfl
    obtain rfl := Option.some.inj (hget.symm.trans hw)
    exact hty hsys
  rw [hs']
  simp [putVal, hkj, hj.symm, hw]

/-- `-=` does what it is for. `+=` does exactly if adding and subtracting the value come to the same,
that is for a value of zero or one that rounding loses. -/
theorem update_iff (x : Ext F) (ci : Sess F → Res F Bool) (h : UpdateExp s v op ys i u)
    (hq : Parses (fun t => (s.tok t).id) q ys) (hcur : s.cur = some e)
    (hfirst : (s.exps e).prefixfirst = none) (hstack : (s.exps e).stacktop = none)
    (htoks : Chain s.infixnext (s.exps e).infixfirst (v :: op :: ys))
    (hfuel : ys.length + 2 < fuel) : ∃ m s', (s.mach e).compile fuel = some (true, m) ∧
      (s.put e m).runPrefix x ci fuel = (some true, s') ∧
      (Updated s s' (s.tok v).str i (updateFn (s.tok op).id u.val
          (q.eval ((s.mach e).read x) fun t => binOp (s.tok t).id)) ↔ (s.tok op).id = .minusEq ∨
          Fnum.sub u.val (q.eval ((s.mach e).read x) fun t => binOp (s.tok t).id) =
            Fnum.add u.val (q.eval ((s.mach e).read x) fun t => binOp (s.tok t).id)) := by
  obtain ⟨hp, hshaped, hresp⟩ := h.parses hq
  obtain ⟨m, hm, hr, hc⟩ := Mach.compile_spec (m := s.mach e) hfirst hstack
    (hp ▸ htoks) (fun t ht => ⟨h.table t (hp ▸ ht), h.plain (hp ▸ ht)⟩) hshaped
    (hresp.congr fun t ht => (h.table t (hp ▸ ht)).2) (by rw [hp]; simpa using hfuel)
  have hput : UpdateExp (s.put e m) v op ys i u := by
    obtain ⟨_, _, _, _, _, rfl⟩ := hr
    exact { h with }
  have htok : (s.put e m).tok = s.tok := hr.tok_eq
  have hvars : (s.put e m).vars = s.vars := by
    obtain ⟨_, _, _, _, _, rfl⟩ := hr
    rfl
  obtain ⟨s', k, hrun, hk, hs'⟩ := runPrefix_update x ci (s := s.put e m) (e := e) hput
    (by rwa [htok]) hcur (by simpa [put] using hc.stack) (by simpa [put, Expr.post] using hc.save)
    hfuel
  rw [hvars, htok] at hs'
  rw [hvars] at hk
  refine ⟨m, s', hm, hrun, (updated_iff h.user h.ans hk hs').trans ?_⟩
  rcases h.op_id with heq | heq
  · simp only [heq, updateFn, if_true, reduceCtorEq, false_or]
    rfl
  · simp only [heq, updateFn, reduceCtorEq, if_false, true_or, iff_true]
    rfl

/-- `a += 5` or `a -= 5` -/
def updateSess (id : TokId) : Sess ℤ :=
  (start [⟨['a'], .norm, false, 1, -1⟩, ⟨ansVarName, .sys, false, 0, -1⟩]).newExp.addInfix 0
    [.fresh .var ['a'], .fresh id [if id = .plusEq then '+' else '-', '='], .fresh .int ['5']]

theorem update_iff_minusEq : ∃ m s', ((updateSess .minusEq).mach 0).compile 9 = some (true, m) ∧
    ((updateSess .minusEq).put 0 m).runPrefix .nothing (fun s => (none, s)) 9 = (some true, s') ∧
    Updated (updateSess .minusEq) s' ['a'] 0 (-4) := by
  have hexp : UpdateExp (updateSess .minusEq) 0 1 [2] 0 ⟨['a'], .norm, false, 1, -1⟩ :=
    ⟨by simp [Tok.FromTable, updateSess, start, newExp, addInfix, Tok.fresh], .inr rfl,
      .operand rfl, by decide, rfl, by decide, ⟨by decide, rfl, rfl, rfl⟩,
      ⟨1, _, by decide, rfl, rfl⟩, by decide⟩
  obtain ⟨m, s', hm, hs', hiff⟩ := update_iff (e := 0) (q := .leaf 2) .nothing
    (fun s => (none, s)) hexp ⟨rfl, rfl, trivial⟩ rfl rfl rfl
    (by simp [updateSess, start, newExp, addInfix]) (by decide : [2].length + 2 < 9)
  exact ⟨m, s', hm, hs', hiff.2 (.inl rfl)⟩

theorem plusEq_subtracts : ∃ m s', ((updateSess .plusEq).mach 0).compile 9 = some (true, m) ∧
    ((updateSess .plusEq).put 0 m).runPrefix .nothing (fun s => (none, s)) 9 = (some true, s') ∧
    varVal s'.vars ['a'] = -4 ∧ ¬Updated (updateSess .plusEq) s' ['a'] 0 (updateFn .plusEq 1 5) := by
  refine ⟨_, _, rfl, rfl, ?_, ?_⟩
  · decide +kernel
  · intro h
    have := h.1
    revert this
    decide +kernel

end Sess
end Prj.Ddlus
