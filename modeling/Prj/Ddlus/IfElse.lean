import Prj.Ddlus.Branch

/-! Which block of an `if` expression is run (`ddlus/console/if.c`). -/
namespace Prj.Ddlus
open Prj.Base Function List

theorem ifToks_cons (c : Clause) (cs : List Clause) (els : Option (ℕ × ℕ)) :
    ifToks (c :: cs) els = c.toks ++ ifToks cs els := by
  simp [ifToks]

theorem ptrIn_of_chain {f : ℕ → Option ℕ} {p : Option ℕ} {xs : List ℕ} (h : Chain f p xs) :
    PtrIn { t | t ∈ xs } p ∧ ∀ t ∈ xs, PtrIn { t | t ∈ xs } (f t) := by
  induction xs generalizing p with
  | nil => exact ⟨by simp [show p = none from h], by simp⟩
  | cons x xs ih =>
    obtain ⟨hnext, hrest⟩ := ih h.2
    have hsub : ∀ q, PtrIn { t | t ∈ xs } q → PtrIn { t | t ∈ x :: xs } q :=
      fun q hq a ha => mem_cons_of_mem x (hq a ha)
    refine ⟨by simp [h.1], fun t ht => ?_⟩
    rcases mem_cons.1 ht with rfl | ht
    · exact hsub _ hnext
    · exact hsub _ (hrest t ht)

namespace Sess
variable {F α : Type} {x : Ext F} {R : Region} {S : Set (List Char)} {T : Set ℕ}
  {s s₀ : Sess F} {e fuel n k block : ℕ} {c : Clause} {cs : List Clause} {els : Option (ℕ × ℕ)}
  {rest : List ℕ} {ci : Sess F → Res F Bool} {s' : Sess F}

theorem quiet_within (s : Sess F) (e : ℕ) (r : Option (α × Mach F)) : (Res.within s e r).2.log = s.log := by
  match r with
  | none => rfl
  | some (a, m) => rfl

/-- Expression `e` is a compiled `if` with the clauses `c :: cs` and the `else` of `els`, about to be
run. -/
structure IfExp (s : Sess F) (e : ℕ) (c : Clause) (cs : List Clause) (els : Option (ℕ × ℕ)) : Prop where
  cur : s.cur = some e
  stack : (s.exps e).stacktop = none
  first : PtrIn { t | t ∈ ifToks (c :: cs) els } (s.exps e).prefixfirst
  last : PtrIn { t | t ∈ ifToks (c :: cs) els } (s.exps e).prefixlast
  post : Chain s.next (s.exps e).saveprefixfirst (ifToks (c :: cs) els)
  clauses : ∀ d ∈ c :: cs, ClauseOk s.tok d
  if_id : (s.tok c.fn).id = .if_
  elseif_id : ∀ d ∈ cs, (s.tok d.fn).id = .elseif
  else_ok : ∀ p ∈ els, BlockOk s.tok p.1 p.2 ∧ (s.tok p.2).id = .else_

theorem IfExp.at_ready (h : IfExp s e c cs els) : At T s e (ifToks (c :: cs) els) (s.ready e) := by
  refine ⟨⟨⟨s.tok, s.next, s.prenext, (s.exps e).saveprefixfirst, (s.exps e).stacktop, s.ncalc,
    (s.exps e).ifcond, 0, rfl⟩, .put fun hk => hk.setFirst hk.save⟩, h.cur, ?_, fun _ _ => rfl⟩
  exact holds_ready h.stack h.post

theorem IfExp.reach (h : IfExp s e c cs els) :
    Mach.Keeps { t | t ∈ ifToks (c :: cs) els } Set.univ (s.mach e) (s.mach e) := by
  obtain ⟨hsave, hnext⟩ := ptrIn_of_chain h.post
  refine ⟨h.first, h.last, hsave, by simp [mach, h.stack], hnext, fun t ht => ⟨?_, trivial⟩,
    fun _ _ => rfl, fun _ _ => rfl, rfl, rfl⟩
  change (s.tok t).id ≠ .goto
  have hclause : ∀ d ∈ c :: cs, t ∈ d.toks → (s.tok d.fn).id ≠ .goto → (s.tok t).id ≠ .goto := by
    intro d hd ht hfn heq
    have hok := h.clauses d hd
    simp only [Clause.toks, mem_append, mem_cons, not_mem_nil, or_false] at ht
    rcases ht with ht | rfl | rfl
    · simpa [heq, TokId.IsOperand, TokId.IsOp] using hok.value t ht
    · simp [hok.block_id] at heq
    · exact hfn heq
  have hmem : t ∈ (c :: cs).flatMap Clause.toks ++ elseToks els := ht
  rw [mem_append, mem_flatMap] at hmem
  rcases hmem with ⟨d, hd, ht⟩ | ht
  · refine hclause d hd ht ?_
    rcases mem_cons.1 hd with rfl | hd
    · simp [h.if_id]
    · simp [h.elseif_id d hd]
  · cases els with
    | none => simp [elseToks] at ht
    | some p =>
      obtain ⟨hok, hid⟩ := h.else_ok p rfl
      simp only [elseToks, mem_cons, not_mem_nil, or_false] at ht
      rcases ht with rfl | rfl
      · simp [hok.block_id]
      · simp [hid]

theorem At.setIfcond (h : At T s₀ e rest s) (i : IfCond) : At T s₀ e rest (s.setIfcond e i) := by
  have hmach : (s.setIfcond e i).mach e = s.mach e := by simp [Sess.setIfcond, mach]
  refine ⟨h.walked.trans (.setIfcond i), h.cur, ?_, h.tok⟩
  rw [hmach]
  exact h.holds

theorem At.first (h : At T s₀ e [] s) : (s.exps e).prefixfirst = none := h.holds.todo

theorem At.back (h : At T s₀ e rest s) (hb : Back R e s s')
    (hrest : ∀ t ∈ rest, t ∉ R.toks) : At T s' e rest s' ∧ ∀ t ∈ rest, s'.tok t = s₀.tok t := by
  have htop : (s.exps e).stacktop = none := h.holds.stack
  refine ⟨⟨.refl T e s', hb.cur, ⟨rfl, rfl, rfl, ?_, hb.top.trans htop, h.holds.nodup⟩,
    fun _ _ => rfl⟩, fun t ht => ?_⟩
  · have htodo : Chain s.next (s.exps e).prefixfirst rest := h.holds.todo
    change Chain s'.next (s'.exps e).prefixfirst rest
    rw [hb.first]
    exact htodo.congr fun t ht => (hb.toks t (hrest t ht)).2
  · rw [(hb.toks t (hrest t ht)).1, h.tok t ht]

variable [Fnum F]

def condTrue (x : Ext F) (s : Sess F) (cond : List ℕ) : Bool := (condVal x s cond).any truth

/-- The block of the first true condition, or of the `else`. -/
def chosen (x : Ext F) (s : Sess F) (els : Option (ℕ × ℕ)) : List Clause → Option ℕ
  | [] => els.map Prod.fst
  | c :: cs => if condTrue x s c.cond then some c.block else chosen x s els cs

def afterChosen (x : Ext F) (s : Sess F) (els : Option (ℕ × ℕ)) : List Clause → List ℕ
  | [] => []
  | c :: cs => if condTrue x s c.cond then ifToks cs els else afterChosen x s els cs

theorem log_finish (s : Sess F) : (s.finish x fuel).2.log = s.log := by
  unfold finish
  split
  · rfl
  · split_ifs
    · split
      · rfl
      · split
        · exact quiet_within _ _ _
        · split_ifs
          · exact quiet_within _ _ _
          · rfl
    · exact quiet_within _ _ _
    · rfl

/-- The lists, expressions and tokens that the blocks use are apart from expression `e`. -/
structure Apart (R : Region) (S : Set (List Char)) (s : Sess F) (e : ℕ) (toks : List ℕ) : Prop where
  closed : Closed R S s s
  exp : e ∉ R.exps
  toks : ∀ t ∈ toks, t ∉ R.toks

structure Context (x : Ext F) (R : Region) (S : Set (List Char)) (T : Set ℕ) (s₀ : Sess F) (e : ℕ) : Prop where
  loc : x.Local
  tame : x.Tame S
  closed : Closed R S s₀ s₀
  exp : e ∉ R.exps
  toks : ∀ t ∈ T, t ∉ R.toks
  reach : Mach.Keeps T Set.univ (s₀.mach e) (s₀.mach e)

theorem runTokens_nil (hcur : s.cur = some e)
    (hfirst : (s.exps e).prefixfirst = none) : runTokens x ci fuel (k + 1) s = (some .go, s) := by
  simp only [runTokens, hcur, hfirst]

theorem At.runBranch {i : IfCond} (h : At T s₀ e rest s) (hctx : Context x R S T s₀ e)
    (hblock : s.tok block = s₀.tok block) (hstart : Startable x R S fuel s₀ e (s₀.tok block).str) :
    ∃ s', blocksOf e s'.log = blocksOf e s₀.log ++ [(s₀.tok block).str] ∧
      (s.runBranch x (runCi x n) fuel e block i = (none, s') ∨
        s.runBranch x (runCi x n) fuel e block i = (some true, s') ∧ Back R e s s') := by
  have hbranch : (s.exps e).branch = (s₀.exps e).branch := by
    obtain ⟨_, _, _, _, _, _, _, _, rfl⟩ := h.walked.same
    simp
  obtain ⟨s', hlog, hrun⟩ := exists_runBranch i n hctx.tame hctx.loc hctx.closed
    (h.walked.agrees hctx.reach hctx.exp hctx.toks) hctx.exp hbranch (by rw [hblock]) hstart
  exact ⟨s', by rw [hlog, h.walked.blocks], hrun⟩

section
variable (ci : Sess F → Res F Bool) (fuel : ℕ) {p : ℕ × ℕ} (hx : x.Local) (h : At T s₀ e [p.1, p.2] s)
  (hok : BlockOk s₀.tok p.1 p.2) (hid : (s₀.tok p.2).id = .else_)
include hx h hok hid

theorem exists_atElse : ∃ s1, Walked T e s s1 ∧ (s1.exps e).ifcond = (s.exps e).ifcond ∧ s1.tok p.1 = s₀.tok p.1 ∧
      Mach.Holds s₀.vars (s1.mach e) ⟨s1.tok, [p.1], s1.ncalc⟩ [] ∧
      ∀ k, runTokens x ci fuel (k + 2) s = (s1.elseFn x ci fuel e).bind (goOn x ci fuel k) := by
  have hcur : s.cur = some e := h.walked.cur.trans h.cur
  have hty : (s.tok p.1).type = .block := by
    rw [h.tok p.1 (by simp)]
    exact hok.block_type
  obtain ⟨s1, hs1, hw1, hif1, h1⟩ := exists_pushBlock x ci fuel hx hcur h.holds hty
  have hfirst : (s1.exps e).prefixfirst = some p.2 := h1.todo.1
  have htok1 : s1.tok = s.tok := h1.tok_eq
  have hfn : s1.tok p.2 = s₀.tok p.2 := by
    rw [htok1]
    exact h.tok p.2 (by simp)
  have hadv := holds_advance h1
  refine ⟨s1.advance e p.2, hw1.trans (.advance hfirst), ?_, ?_, ?_, fun k => ?_⟩
  · rw [ifcond_advance, hif1]
  · rw [tok_advance, htok1]
    exact h.tok p.1 (by simp)
  · exact ⟨rfl, rfl, hadv.vars_eq, hadv.todo, hadv.stack, hadv.nodup⟩
  · have hfnid : ((s1.advance e p.2).tok p.2).id = .else_ := by rw [tok_advance, hfn, hid]
    rw [hs1, runTokens_func x ci fuel (hw1.cur.trans hcur) hfirst (by rw [hfn]; exact hok.fn_type)]
    simp only [runFn, hfnid]

theorem exists_else (hif : (s.exps e).ifcond = .false_) : ∃ s1, At T s₀ e [] s1 ∧ s1.tok p.1 = s₀.tok p.1 ∧
      ∀ k, runTokens x ci fuel (k + 2) s = ((s1.runBranch x ci fuel e p.1 .false_).bind fun b s =>
          (some b, s.setIfcond e .endif)).bind (goOn x ci fuel k) := by
  obtain ⟨s1, hw1, hif1, htok1, h1, hs1⟩ := exists_atElse ci fuel hx h hok hid
  have hbr : (s1.tok p.1).id ≠ .brOpen := by simp [htok1, hok.block_id]
  obtain ⟨m, hm, hh, hw⟩ := Mach.poptok_spec h1 rfl hbr
  have htok : (s1.put e m).tok = s1.tok := hh.tok_eq
  have hkeeps : Mach.Keeps T Set.univ (s1.mach e) (s1.mach e) → Mach.Keeps T Set.univ (s1.mach e) m := by
    intro hk
    have hpop := hk.poptok
    rw [hm] at hpop
    exact hpop.1
  have hfalse : ((s1.put e m).exps e).ifcond = .false_ := by simp [put, hif1, hif]
  refine ⟨s1.put e m, ⟨h.walked.trans (hw1.trans (.put hw hkeeps)), h.cur, ?_, by simp⟩, ?_, fun k => ?_⟩
  · rw [mach_put]
    exact ⟨rfl, rfl, hh.vars_eq, hh.todo, hh.stack, hh.nodup⟩
  · rw [htok, htok1]
  · rw [hs1]
    simp only [elseFn, hif1, hif, popOr, hm, hfalse]

end

theorem blocks_goOn {r : Res F Bool} {text : List Char}
    (hlog : blocksOf e s'.log = blocksOf e s₀.log ++ [text]) (hrun : r = (none, s') ∨
      r = (some true, s') ∧ s'.cur = some e ∧ (s'.exps e).prefixfirst = none) :
    blocksOf e (r.bind (goOn x (runCi x n) fuel (k + 1))).2.log = blocksOf e s₀.log ++ [text] := by
  rcases hrun with rfl | ⟨rfl, hcur, hfirst⟩
  · exact hlog
  · change blocksOf e (runTokens x (runCi x n) fuel (k + 1) s').2.log = _
    rw [runTokens_nil hcur hfirst]
    exact hlog

section
variable (h : At T s₀ e (ifToks cs els) s) (hk : (ifToks cs els).length < k)
  (hcs : ∀ d ∈ cs, ClauseOk s₀.tok d ∧ (s₀.tok d.fn).id = .elseif)
  (hels : ∀ p ∈ els, BlockOk s₀.tok p.1 p.2 ∧ (s₀.tok p.2).id = .else_)
include h hk hcs hels

theorem blocks_elseifs (hctx : Context x R S T s₀ e) (hif : (s.exps e).ifcond = .false_)
    (hlast : afterChosen x s₀ els cs = [])
    (hstart : ∀ b ∈ chosen x s₀ els cs, Startable x R S fuel s₀ e (s₀.tok b).str) :
    blocksOf e (runTokens x (runCi x n) fuel k s).2.log = blocksOf e s₀.log ++
      (chosen x s₀ els cs).toList.map fun b => (s₀.tok b).str := by
  induction cs generalizing s k with
  | nil =>
    cases els with
    | none =>
      obtain ⟨k, rfl⟩ : ∃ j, k = j + 1 := ⟨k - 1, by omega⟩
      rw [runTokens_nil (h.walked.cur.trans h.cur) h.first]
      simpa [chosen] using h.walked.blocks e
    | some p =>
      have hlen : (ifToks [] (some p)).length = 2 := rfl
      obtain ⟨k, rfl⟩ : ∃ j, k = j + 1 + 2 := ⟨k - 3, by omega⟩
      obtain ⟨hok, hid⟩ := hels p rfl
      obtain ⟨s1, h1, htok, hrun⟩ := exists_else (runCi x n) fuel hctx.loc h hok hid hif
      obtain ⟨s2, hlog, hbranch⟩ := h1.runBranch (n := n) (i := .false_) hctx htok (hstart p.1 rfl)
      rw [hrun]
      rcases hbranch with hb | ⟨hb, hback⟩
      · exact blocks_goOn hlog (.inl (by rw [hb]; rfl))
      · have hfirst : ((s2.setIfcond e .endif).exps e).prefixfirst = none := by
          simpa [setIfcond] using hback.first.trans h1.first
        have hend : blocksOf e (s2.setIfcond e .endif).log = _ := hlog
        exact blocks_goOn hend (.inr ⟨by rw [hb]; rfl, hback.cur, hfirst⟩)
  | cons c cs ih =>
    obtain ⟨hc, hid⟩ := hcs c (by simp)
    rw [ifToks_cons] at h hk
    rw [length_append] at hk
    obtain ⟨k, rfl⟩ : ∃ j, k = j + c.toks.length := ⟨k - c.toks.length, by omega⟩
    obtain ⟨v, s1, hval, h1, -, htok, hrun⟩ := exists_clause x (runCi x n) fuel hctx.loc h hc (.inr ⟨hid, hif⟩)
    have htrue : condTrue x s₀ c.cond = truth v := by simp [condTrue, hval]
    rw [hrun]
    cases hv : truth v with
    | false =>
      simp only [chosen, afterChosen, htrue, hv, Bool.false_eq_true, if_false] at hlast hstart ⊢
      exact ih (h1.setIfcond .false_) (by omega) (fun d hd => hcs d (by simp [hd])) (by simp [setIfcond]) hlast hstart
    | true =>
      simp only [chosen, afterChosen, htrue, hv, if_true] at hlast hstart ⊢
      obtain ⟨k, rfl⟩ : ∃ j, k = j + 1 := ⟨k - 1, by omega⟩
      rw [hlast] at h1
      obtain ⟨s2, hlog, hbranch⟩ := h1.runBranch (n := n) (i := .true_) hctx htok (hstart c.block rfl)
      rcases hbranch with hb | ⟨hb, hback⟩
      · exact blocks_goOn hlog (.inl hb)
      · exact blocks_goOn hlog (.inr ⟨hb, hback.cur, hback.first.trans h1.first⟩)

/-- After the block of a true `if` the next clause is refused, because `RESTORE` has put `ifcond`
back. -/
theorem blocks_refused (hx : x.Local) (hif : (s.exps e).ifcond = .noif) :
    blocksOf e (runTokens x (runCi x n) fuel k s).2.log = blocksOf e s₀.log := by
  have hcur : s.cur = some e := h.walked.cur.trans h.cur
  cases cs with
  | nil =>
    cases els with
    | none =>
      obtain ⟨k, rfl⟩ : ∃ j, k = j + 1 := ⟨k - 1, by omega⟩
      rw [runTokens_nil hcur h.first]
      exact h.walked.blocks e
    | some p =>
      have hlen : (ifToks [] (some p)).length = 2 := rfl
      obtain ⟨k, rfl⟩ : ∃ j, k = j + 2 := ⟨k - 2, by omega⟩
      obtain ⟨hok, hid⟩ := hels p rfl
      obtain ⟨s1, hw1, hif1, -, -, hrun⟩ := exists_atElse (runCi x n) fuel hx h hok hid
      rw [hrun]
      simp only [elseFn, hif1, hif]
      exact (hw1.blocks e).trans (h.walked.blocks e)
  | cons c cs =>
    obtain ⟨hc, hid⟩ := hcs c (by simp)
    have hlen : c.toks.length = c.cond.length + 2 := by simp [Clause.toks]
    rw [ifToks_cons] at h hk
    rw [length_append] at hk
    obtain ⟨k, rfl⟩ : ∃ j, k = j + 1 + 1 + c.cond.length := ⟨k - c.cond.length - 2, by omega⟩
    obtain ⟨v, w, s1, r, -, hs1, hw1, hif1, h1, -, -, -, htok⟩ :=
      exists_atFn x (runCi x n) fuel hx h hc
    have hfirst : (s1.exps e).prefixfirst = some c.fn := h1.todo.1
    have hfn : s1.tok c.fn = s₀.tok c.fn := by
      rw [show s1.tok = r.tok from h1.tok_eq]
      exact htok c.fn (by simp)
    have hfnid : ((s1.advance e c.fn).tok c.fn).id = .elseif := by rw [tok_advance, hfn, hid]
    rw [hs1, runTokens_func x _ fuel (hw1.cur.trans hcur) hfirst (by rw [hfn]; exact hc.fn_type)]
    simp only [runFn, hfnid, elseIfFn, ifcond_advance, hif1, hif]
    have hwalk := hw1.trans (Walked.advance hfirst)
    exact (hwalk.blocks e).trans (h.walked.blocks e)

end

theorem blocks_runPrefix (hcur : s.cur = some e)
    (hstack : (s.exps e).stacktop = none) (hfuel : 0 < fuel) : blocksOf e (s.runPrefix x ci fuel).2.log =
      blocksOf e (runTokens x ci fuel fuel (s.ready e)).2.log := by
  obtain ⟨k, rfl⟩ : ∃ k, fuel = k + 1 := ⟨fuel - 1, by omega⟩
  have hready : s.put e { s.mach e with prefixfirst := (s.mach e).saveprefixfirst } = s.ready e :=
    rfl
  simp only [runPrefix, hcur, popAll_mach hstack, hready]
  rcases runTokens x ci (k + 1) (k + 1) (s.ready e) with ⟨_ | _ | b, s'⟩
  · rfl
  · exact congrArg (blocksOf e) (log_finish s')
  · rfl

/-- The blocks that a run of the expression executes are the block of the first true condition, the
block of the `else` if there is none, and nothing if there is no `else`. -/
def RunsChosen (x : Ext F) (n fuel : ℕ) (s : Sess F) (e : ℕ) (cs : List Clause) (els : Option (ℕ × ℕ)) : Prop :=
  blocksOf e (s.runPrefix x (runCi x n) fuel).2.log = blocksOf e s.log ++
    (chosen x s els cs).toList.map fun b => (s.tok b).str

/-- The right block is run if no branch of another block is kept, and if the condition of the `if` is
true or nothing follows the chosen block. -/
theorem runsChosen_of_last (hx : x.Local) (hS : x.Tame S) (h : IfExp s e c cs els)
    (hR : Apart R S s e (ifToks (c :: cs) els)) (hif : (s.exps e).ifcond = .noif)
    (hstart : ∀ b ∈ chosen x s els (c :: cs), Startable x R S fuel s e (s.tok b).str)
    (hlast : condTrue x s c.cond = true ∨ afterChosen x s els cs = [])
    (hfuel : (ifToks (c :: cs) els).length < fuel) (n : ℕ) : RunsChosen x n fuel s e (c :: cs) els := by
  have hctx : Context x R S { t | t ∈ ifToks (c :: cs) els } s e :=
    ⟨hx, hS, hR.closed, hR.exp, hR.toks, h.reach⟩
  have hcs : ∀ d ∈ cs, ClauseOk s.tok d ∧ (s.tok d.fn).id = .elseif :=
    fun d hd => ⟨h.clauses d (by simp [hd]), h.elseif_id d hd⟩
  have hat : At { t | t ∈ ifToks (c :: cs) els } s e (c.toks ++ ifToks cs els) (s.ready e) := by
    rw [← ifToks_cons]
    exact h.at_ready
  rw [ifToks_cons, length_append] at hfuel
  have hready : ((s.ready e).exps e).ifcond = .noif := by simpa [ready, put] using hif
  obtain ⟨v, s1, hval, h1, hif1, htok, hrun⟩ := exists_clause x (runCi x n) fuel hx hat
    (h.clauses c (by simp)) (.inl ⟨h.if_id, hready⟩)
  have htrue : condTrue x s c.cond = truth v := by simp [condTrue, hval]
  obtain ⟨k, hk⟩ : ∃ k, fuel = k + c.toks.length := ⟨fuel - c.toks.length, by omega⟩
  rw [RunsChosen, blocks_runPrefix h.cur h.stack (by omega)]
  have hrun' := hrun k
  rw [← hk] at hrun'
  rw [hrun']
  cases hv : truth v with
  | false =>
    simp only [chosen, htrue, hv, Bool.false_eq_true, if_false, false_or] at hlast hstart ⊢
    exact blocks_elseifs (h1.setIfcond .false_) (by omega) hcs h.else_ok hctx (by simp [setIfcond]) hlast hstart
  | true =>
    simp only [chosen, htrue, hv, if_true] at hstart ⊢
    obtain ⟨s2, hlog, hbranch⟩ := h1.runBranch (n := n) (i := .true_) hctx htok (hstart c.block rfl)
    rcases hbranch with hb | ⟨hb, hback⟩
    · rw [hb]
      exact hlog
    · have hrest : ∀ t ∈ ifToks cs els, t ∉ R.toks := fun t ht => by
        refine hR.toks t ?_
        rw [ifToks_cons]
        exact mem_append_right _ ht
      obtain ⟨h2, htok2⟩ := h1.back hback hrest
      rw [hb]
      refine (blocks_refused h2 (by omega) (fun d hd => ?_) (fun p hp => ?_) hx ?_).trans hlog
      · have htoks : ∀ t ∈ d.toks, s2.tok t = s.tok t := fun t ht =>
          htok2 t (mem_append_left _ (mem_flatMap.2 ⟨d, hd, ht⟩))
        refine ⟨(hcs d hd).1.congr htoks, ?_⟩
        rw [htoks d.fn (by simp [Clause.toks])]
        exact (hcs d hd).2
      · obtain rfl := Option.mem_def.1 hp
        have htoks : ∀ t ∈ [p.1, p.2], s2.tok t = s.tok t := fun t ht =>
          htok2 t (mem_append_right _ ht)
        obtain ⟨hok, hid⟩ := h.else_ok p rfl
        refine ⟨hok.congr (htoks _ (by simp)) (htoks _ (by simp)), ?_⟩
        rw [htoks p.2 (by simp), hid]
      · rw [hback.ifcond, hif1, hready]

/-- `if (a) {X} elseif (b) {Y}` with `a = 0` and `b = 1`. -/
def elseIf : Sess ℤ :=
  { start [⟨['a'], .norm, false, 0, -1⟩, ⟨['b'], .norm, false, 1, -1⟩, ⟨ansVarName, .sys, false, 0, -1⟩] with
    tok := fun t => match t with
      | 0 => .fresh .var ['a']
      | 1 => .fresh .block ['X']
      | 2 => .fresh .if_ ['i', 'f']
      | 3 => .fresh .var ['b']
      | 4 => .fresh .block ['Y']
      | 5 => .fresh .elseif ['e', 'l', 's', 'e', 'i', 'f']
      | _ => .fresh .empty []
    next := fun t => match t with
      | 0 => some 1
      | 1 => some 2
      | 2 => some 3
      | 3 => some 4
      | 4 => some 5
      | _ => none
    exps := fun e =>
      let first := if e = 0 then some 0 else none
      { infixfirst := none, prefixfirst := first, prefixlast := if e = 0 then some 5 else none
        saveprefixfirst := first, stacktop := none, ifcond := .noif, next := none, branch := none }
    pres := fun p =>
      let exp := if p = 0 then some 0 else none
      { expfirst := exp, explast := exp, exp := exp, src := [] }
    ntok := 6, nexp := 1, npre := 1 }

theorem runsChosen_of_last_elseIf : RunsChosen .nothing 3 7 elseIf 0 [⟨[0], 1, 2⟩, ⟨[3], 4, 5⟩] none ∧
      chosen .nothing elseIf none [⟨[0], 1, 2⟩, ⟨[3], 4, 5⟩] = some 4 := by
  have hok : ∀ d ∈ [(⟨[0], 1, 2⟩ : Clause), ⟨[3], 4, 5⟩], ClauseOk elseIf.tok d := by
    intro d hd
    simp only [mem_cons, not_mem_nil, or_false] at hd
    rcases hd with rfl | rfl
    all_goals exact ⟨⟨rfl, rfl, rfl⟩, by simp [elseIf, Tok.FromTable, Tok.fresh], by decide, by decide, rfl⟩
  have hexp : IfExp elseIf 0 ⟨[0], 1, 2⟩ [⟨[3], 4, 5⟩] none :=
    ⟨rfl, rfl, by simp [elseIf, ifToks, Clause.toks], by simp [elseIf, ifToks, Clause.toks],
      ⟨rfl, rfl, rfl, rfl, rfl, rfl, rfl⟩, hok, rfl, by simp [elseIf, Tok.fresh], by simp⟩
  have hclosed : Closed ⟨{ p | 1 ≤ p }, { e | 1 ≤ e }, { t | 6 ≤ t }⟩ Set.univ elseIf elseIf := by
    refine ⟨fun _ h => h, fun _ h => h, fun _ h => h, fun p hp => ?_, fun e he => ?_, fun t ht => ?_,
      fun t ht => ?_, fun _ _ => rfl, fun _ _ => ⟨rfl, rfl⟩, fun _ _ => rfl⟩
    · have hne : p ≠ 0 := Nat.ne_of_gt hp
      constructor <;> simp [elseIf, hne]
    · have hne : e ≠ 0 := Nat.ne_of_gt he
      constructor <;> simp [elseIf, hne]
    · obtain ⟨t, rfl⟩ := Nat.exists_eq_add_of_le' (show 6 ≤ t from ht)
      exact ⟨ptrIn_none, ptrIn_none⟩
    · obtain ⟨t, rfl⟩ := Nat.exists_eq_add_of_le' (show 6 ≤ t from ht)
      exact ⟨by simp [elseIf, Tok.fresh], trivial⟩
  have hchosen : chosen .nothing elseIf none [⟨[0], 1, 2⟩, ⟨[3], 4, 5⟩] = some 4 := by decide +kernel
  refine ⟨runsChosen_of_last Ext.local_nothing (S := Set.univ) (fun _ _ _ h => by simp [Ext.nothing] at h)
    hexp ⟨hclosed, by simp, by simp [ifToks, Clause.toks, elseToks]⟩ rfl (fun b _ => ?_) (.inr (by decide +kernel))
    (by decide) 3, hchosen⟩
  exact ⟨trivial, fun s => ⟨_, _, rfl⟩⟩

/-- `if (a) {X} elseif (b) {Y} else {Z}` with `a = 0` and `b = 1`. -/
def ifElse : Sess ℤ :=
  (prefixExps 20 [some [.fresh .if_ ['i', 'f'], .fresh .brOpen ['('], .fresh .var ['a'],
    .fresh .brClose [')'], .fresh .block ['X'], .fresh .elseif ['e', 'l', 's', 'e', 'i', 'f'],
    .fresh .brOpen ['('], .fresh .var ['b'], .fresh .brClose [')'], .fresh .block ['Y'],
    .fresh .else_ ['e', 'l', 's', 'e'], .fresh .block ['Z']]]
    (start [⟨['a'], .norm, false, 0, -1⟩, ⟨['b'], .norm, false, 1, -1⟩,
      ⟨ansVarName, .sys, false, 0, -1⟩])).getD (start [])

/-- After the block of an `elseif` the condition is false again, and the `else` runs the branch that
is there, which is that block once more. -/
theorem not_runsChosen_ifElse : IfExp ifElse 0 ⟨[2], 4, 0⟩ [⟨[7], 9, 5⟩] (some (11, 10)) ∧
      (ifElse.runPrefix .nothing (runCi .nothing 9) 20).1 = some true ∧
      ¬ RunsChosen .nothing 9 20 ifElse 0 [⟨[2], 4, 0⟩, ⟨[7], 9, 5⟩] (some (11, 10)) := by
  have hclause : ∀ d ∈ [(⟨[2], 4, 0⟩ : Clause), ⟨[7], 9, 5⟩], ClauseOk ifElse.tok d := by
    intro d hd
    simp only [mem_cons, not_mem_nil, or_false] at hd
    rcases hd with rfl | rfl
    all_goals exact ⟨⟨by decide +kernel, by decide +kernel, by decide +kernel⟩,
      by unfold Tok.FromTable; decide +kernel, by decide +kernel, by decide +kernel, by decide +kernel⟩
  have hfirst : (ifElse.exps 0).prefixfirst = some 2 := by decide +kernel
  have hlast : (ifElse.exps 0).prefixlast = some 10 := by decide +kernel
  refine ⟨⟨by decide +kernel, by decide +kernel, ?_, ?_, ?_, hclause, by decide +kernel, ?_, ?_⟩,
    by decide +kernel, ?_⟩
  · rw [hfirst]
    simp [ifToks, Clause.toks]
  · rw [hlast]
    simp [ifToks, elseToks]
  · exact ⟨by decide +kernel, by decide +kernel, by decide +kernel, by decide +kernel,
      by decide +kernel, by decide +kernel, by decide +kernel, by decide +kernel,
      (by decide +kernel : ifElse.next 10 = none)⟩
  · decide +kernel
  · intro p hp
    cases hp
    exact ⟨⟨by decide +kernel, by decide +kernel, by decide +kernel⟩, by decide +kernel⟩
  · unfold RunsChosen
    decide +kernel

end Sess
end Prj.Ddlus
