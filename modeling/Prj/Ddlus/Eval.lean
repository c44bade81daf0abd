import Prj.Ddlus.Loop

/-! An infix list is calculated as its parse by the precedence numbers of `tok[]` says. -/
namespace Prj.Ddlus
open Prj.Base Function List Option

def TokId.IsBinary (id : TokId) : Bool :=
  (id.type = .mathBasic || id.type = .mathLogic) &&
    !(id = .brOpen || id = .brClose || id = .abrOpen || id = .abrClose || id = .not)

def TokId.Assigns : TokId → Bool
  | assign | plusEq | minusEq => true
  | _ => false

theorem TokId.isOp_of_isBinary {id : TokId} (h : id.IsBinary = true) (ha : id.Assigns = false) :
    id.IsOp = true ∧ id ≠ .not := by
  revert h ha
  cases id <;> simp [TokId.IsBinary, TokId.Assigns, TokId.IsOp, TokId.type]

namespace Reg
variable {F : Type} [Fnum F] {x : Ext F} {vars : List (Var F)} {r : Reg F} {t1 t2 a : ℕ} {stk : List ℕ}

theorem value_store_self (r : Reg F) (t : ℕ) (ans : F) : value x vars (r.store t ans).tok t = ans := by
  have hres : ((r.tok t).settokval ans).res = true := rfl
  simp [value, resolved, store, Tok.resolve_of_res hres]

theorem tok_step2_of_ne {id : TokId} (h1 : a ≠ t1) (h2 : a ≠ t2) : (r.step2 x vars id t1 t2 stk).tok a = r.tok a := by
  simp only [step2, store, look, update_of_ne h2]
  split_ifs
  · rw [update_of_ne h1, update_of_ne h2]
  · rw [update_of_ne h2]

/-- The stack holds the values `vs` on top of the tokens `base`; these and the tokens `rest` are
still as they were in `tok`. -/
structure Shows (x : Ext F) (vars : List (Var F)) (tok : ℕ → Tok F) (base : List ℕ) (r : Reg F)
    (vs : List F) (rest : List ℕ) : Prop where
  values : ∃ ts, r.stk = ts ++ base ∧ ts.map (value x vars r.tok) = vs
  ids : ∀ t, (r.tok t).id = (tok t).id
  fresh : ∀ t ∈ base ++ rest, r.tok t = tok t
  nodup : (r.stk ++ rest).Nodup

variable {tok : ℕ → Tok F} {vs vs' : List F} {ent : ℕ} {base xs rest : List ℕ}

theorem Shows.operand (h : Shows x vars tok base r vs (ent :: rest)) (hop : (tok ent).id.IsOperand = true) :
    ∃ r', r.step x vars ent = some r' ∧ Shows x vars tok base r' (value x vars tok ent :: vs) rest := by
  have hent := h.fresh ent (by simp)
  have hno : (tok ent).id.IsOp = false := by
    revert hop
    cases (tok ent).id <;> simp [TokId.IsOperand, TokId.IsOp]
  have hstep : r.step x vars ent = some { r with
      stk := ent :: r.stk, ncalc := r.ncalc + if (tok ent).type = .number then 1 else 0 } := by
    simp [step, hent, hno]
  obtain ⟨ts, hts, hvs⟩ := h.values
  refine ⟨_, hstep, ⟨ent :: ts, by simp [hts], ?_⟩, h.ids, fun t ht => h.fresh t (by grind),
    perm_middle.nodup_iff.1 h.nodup⟩
  simp [hvs, value, resolved, hent]

theorem Shows.binary (h : Shows x vars tok base r vs (ent :: rest)) {v v2 : F}
    (hop : (tok ent).id.IsOp = true) (hnot : (tok ent).id ≠ .not) (hvs : vs = v :: v2 :: vs') :
    ∃ r', r.step x vars ent = some r' ∧ Shows x vars tok base r' (binOp (tok ent).id v2 v :: vs') rest := by
  obtain ⟨ts, hstk, hval⟩ := h.values
  obtain ⟨t1, t2, ts, rfl⟩ : ∃ t1 t2 ts', ts = t1 :: t2 :: ts' := by
    match ts with
    | [] | [_] => simp [hvs] at hval
    | t1 :: t2 :: ts => exact ⟨t1, t2, ts, rfl⟩
  rw [hvs, map_cons, map_cons, List.cons.injEq, List.cons.injEq] at hval
  have hid : (r.tok ent).id = (tok ent).id := h.ids ent
  have hstep : r.step x vars ent = some (r.step2 x vars (tok ent).id t1 t2 (ts ++ base)) := by
    rw [← hid] at hop hnot ⊢
    exact step_eq_step2 hop hstk hnot
  have hn := h.nodup
  rw [hstk] at hn
  have hother : ∀ a ∈ ts ++ base ++ rest, (r.step2 x vars (tok ent).id t1 t2 (ts ++ base)).tok a = r.tok a :=
    fun a ha => tok_step2_of_ne (by grind) (by grind)
  refine ⟨_, hstep, ⟨t2 :: ts, rfl, ?_⟩, fun t => ?_, fun t ht => ?_, ?_⟩
  · rw [← hval.1, ← hval.2.1, ← hval.2.2]
    refine cons_eq_cons.2 ⟨value_store_self _ _ _, map_congr_left fun a ha => ?_⟩
    rw [value, resolved, hother a (by simp [ha])]
    rfl
  · exact (Tok.id_eq_of_shape (shape_step hstep t)).trans (h.ids t)
  · rw [hother t (by grind), h.fresh t (by grind)]
  · exact hn.sublist (by simp [step2, store])

theorem Shows.single {v : F} (h : Shows x vars tok base r [v] rest) :
    ∃ w, r.stk = w :: base ∧ value x vars r.tok w = v := by
  obtain ⟨ts, hts, hvs⟩ := h.values
  obtain ⟨w, rfl⟩ : ∃ w, ts = [w] := by
    rw [← length_eq_one_iff, ← length_map, hvs]
    rfl
  exact ⟨w, hts, by simpa using hvs⟩

/-- One token does to the stack of values what the two-operand stack machine does. -/
theorem Shows.step (h : Shows x vars tok base r vs (ent :: rest))
    (hv : (tok ent).id.IsOperand = true ∨ (tok ent).id.IsOp = true ∧ (tok ent).id ≠ .not)
    (hs : stackStep (fun t => (tok t).id.kind) (value x vars tok) (fun t => binOp (tok t).id) vs ent =
      some vs') : ∃ r', r.step x vars ent = some r' ∧ Shows x vars tok base r' vs' rest := by
  have hkind : (tok ent).id.IsOp = true ↔ (tok ent).id.kind = .oper := by
    revert hv
    cases (tok ent).id <;> simp [TokId.IsOperand, TokId.IsOp, TokId.kind, TokId.type]
  unfold stackStep at hs
  rcases hv with hop | ⟨hop, hnot⟩
  · have hno : ¬(tok ent).id.kind = .oper := by
      rw [← hkind]
      revert hop
      cases (tok ent).id <;> simp [TokId.IsOperand, TokId.IsOp]
    rw [if_neg hno] at hs
    cases hs
    exact h.operand hop
  · rw [if_pos (hkind.1 hop)] at hs
    split at hs
    · cases hs
      exact h.binary hop hnot rfl
    · cases hs

theorem Shows.run (h : Shows x vars tok base r vs (xs ++ rest))
    (hv : ∀ t ∈ xs, (tok t).id.IsOperand = true ∨ (tok t).id.IsOp = true ∧ (tok t).id ≠ .not)
    (hs : stackRun (fun t => (tok t).id.kind) (value x vars tok) (fun t => binOp (tok t).id) vs xs =
      some vs') : ∃ r', r.run x vars xs = some r' ∧ Shows x vars tok base r' vs' rest := by
  induction xs generalizing r vs with
  | nil =>
    cases hs
    exact ⟨r, rfl, h⟩
  | cons ent xs ih =>
    obtain ⟨vs1, hs1, hs⟩ := bind_eq_some_iff.1 hs
    obtain ⟨r1, hr1, h1⟩ := h.step (hv ent (by simp)) hs1
    obtain ⟨r', hr', h'⟩ := ih h1 (fun t hin => hv t (by simp [hin])) hs
    refine ⟨r', ?_, h'⟩
    rw [run_cons, hr1]
    exact hr'

end Reg

/-- Infix lists of operands, operators between two operands and balanced round brackets. -/
inductive WellFormed (id : ℕ → TokId) : List ℕ → Prop
  | operand {a : ℕ} (h : (id a).IsOperand = true) : WellFormed id [a]
  | brackets {o c : ℕ} {xs : List ℕ} (ho : id o = .brOpen) (h : WellFormed id xs)
      (hc : id c = .brClose) : WellFormed id (o :: (xs ++ [c]))
  | binary {op : ℕ} {xs ys : List ℕ} (hx : WellFormed id xs) (h : (id op).IsBinary = true)
      (hy : WellFormed id ys) : WellFormed id (xs ++ op :: ys)

/-- The parse of an infix list by the table: a smaller number binds tighter, and equal numbers
associate to the left. -/
structure Parses (id : ℕ → TokId) (p : Expr ℕ) (xs : List ℕ) : Prop where
  toks : p.toks = xs
  shaped : p.Shaped fun t => (id t).kind
  respects : p.Respects fun t => (id t).pred

namespace WellFormed
variable {id : ℕ → TokId} {xs : List ℕ}

section
variable (h : WellFormed id xs) {t : ℕ}
include h

theorem mem (ht : t ∈ xs) : (id t).IsOperand = true ∨ (id t).IsBinary = true ∨ id t = .brOpen ∨ id t = .brClose := by
  induction h with
  | operand h =>
    obtain rfl := mem_singleton.1 ht
    exact .inl h
  | brackets ho _ hc ih =>
    simp only [mem_cons, mem_append, not_mem_nil, or_false] at ht
    rcases ht with rfl | ht | rfl
    · simp [ho]
    · exact ih ht
    · simp [hc]
  | binary _ h _ ihx ihy =>
    simp only [mem_cons, mem_append] at ht
    rcases ht with ht | rfl | ht
    · exact ihx ht
    · simp [h]
    · exact ihy ht

theorem plain (ht : t ∈ xs) : (id t).Plain := by
  have hmem := h.mem ht
  revert hmem
  cases id t <;> simp [TokId.IsOperand, TokId.IsBinary, TokId.type, TokId.Plain]

theorem exists_shaped : ∃ p : Expr ℕ, p.toks = xs ∧ p.Shaped fun t => (id t).kind := by
  have hoperand : ∀ i : TokId, i.IsOperand = true → i.kind = .operand := by
    intro i
    cases i <;> simp [TokId.IsOperand, TokId.kind, TokId.type]
  have hbinary : ∀ i : TokId, i.IsBinary = true → i.kind = .oper := by
    intro i
    cases i <;> simp [TokId.IsBinary, TokId.kind, TokId.type]
  induction h with
  | operand h => exact ⟨.leaf _, rfl, hoperand _ h⟩
  | brackets ho _ hc ih =>
    obtain ⟨p, rfl, hp⟩ := ih
    exact ⟨.paren _ p _, rfl, Mach.kind_eq_opn_iff.2 ho, hp, Mach.kind_eq_cls_iff.2 hc⟩
  | binary _ h _ ihx ihy =>
    obtain ⟨p, rfl, hp⟩ := ihx
    obtain ⟨q, rfl, hq⟩ := ihy
    exact ⟨.bin p _ q, rfl, hp, hbinary _ h, hq⟩

theorem exists_parse : ∃ p, Parses id p xs := by
  obtain ⟨p, hp, hs⟩ := h.exists_shaped
  exact ⟨p.regroup fun t => (id t).pred, by rw [Expr.toks_regroup, hp], Expr.shaped_regroup hs,
    Expr.respects_regroup p⟩

theorem value_of_post (ha : ∀ t ∈ xs, (id t).Assigns = false) {p : Expr ℕ} (hp : Parses id p xs) (ht : t ∈ p.post) :
    (id t).IsOperand = true ∨ (id t).IsOp = true ∧ id t ≠ .not := by
  have hin : t ∈ xs := hp.toks ▸ Expr.mem_toks_of_mem_post ht
  have hk := Expr.kind_of_mem_post hp.shaped ht
  rw [Ne, Mach.kind_eq_opn_iff, Ne, Mach.kind_eq_cls_iff] at hk
  rcases h.mem hin with h | h | h | h
  · exact .inl h
  · exact .inr (TokId.isOp_of_isBinary h (ha t hin))
  · exact absurd h hk.1
  · exact absurd h hk.2

end
end WellFormed

namespace Sess
variable {F : Type} [Fnum F] {s : Sess F} {e fuel : ℕ} {xs : List ℕ}

theorem runPrefix_parse (x : Ext F) (ci : Sess F → Res F Bool) {p : Expr ℕ} (hcur : s.cur = some e)
    (hstack : (s.exps e).stacktop = none) (hpost : Chain s.next (s.exps e).saveprefixfirst p.post)
    (hp : p.Shaped fun t => (s.tok t).id.kind) (htab : ∀ t ∈ p.post, (s.tok t).FromTable)
    (hv : ∀ t ∈ p.post, (s.tok t).id.IsOperand = true ∨
      (s.tok t).id.IsOp = true ∧ (s.tok t).id ≠ .not) (hfuel : p.post.length < fuel) :
    ∃ (s' : Sess F) (r : Reg F) (w : ℕ), s.runPrefix x ci fuel = s'.finish x fuel ∧ s'.cur = some e ∧
      Mach.Holds s.vars (s'.mach e) r [] ∧ r.stk = [w] ∧ (r.tok w).id ≠ .brOpen ∧
      Reg.value x s.vars r.tok w = p.eval (Reg.value x s.vars s.tok) (fun t => binOp (s.tok t).id) ∧
      r.ncalc = s.ncalc + p.post.countP fun t => (s.tok t).id.Counts := by
  have hstart : Reg.Shows x s.vars s.tok [] ⟨s.tok, [], s.ncalc⟩ [] (p.post ++ []) := by
    exact ⟨⟨[], rfl, rfl⟩, fun _ => rfl, fun _ _ => rfl, by simpa using hpost.nodup⟩
  obtain ⟨r, hr, hshow⟩ := hstart.run hv (stackRun_post hp)
  obtain ⟨s', hs', h', hran⟩ := runPrefix_run ci fuel hcur hstack hpost htab
    (fun t ht => (hv t ht).imp id And.left) hfuel hr
  obtain ⟨w, hw, hval⟩ := hshow.single
  refine ⟨s', r, w, hs', hran.cur_eq.trans hcur, h', hw, ?_, hval, Reg.ncalc_run htab hr⟩
  rw [hshow.ids]
  intro heq
  have hmem := hv w ((Reg.mem_stk_of_run hr (by simp [hw])).resolve_right (by simp))
  simp [heq, TokId.IsOperand, TokId.IsOp] at hmem

/-- A well-formed infix list has a parse by the table. For every such parse, compiling gives its
postfix list, which calculates the value of the parse whatever the operators are; and unless it
assigns, `runprefix` calculates the value of the parse from the values of the operands. -/
theorem calculates_parse (x : Ext F) (ci : Sess F → Res F Bool) (hcur : s.cur = some e)
    (hfirst : (s.exps e).prefixfirst = none) (hstack : (s.exps e).stacktop = none)
    (hxs : Chain s.infixnext (s.exps e).infixfirst xs) (htab : ∀ t ∈ xs, (s.tok t).FromTable)
    (hwf : WellFormed (fun t => (s.tok t).id) xs) (hfuel : xs.length < fuel) :
    (∃ p, Parses (fun t => (s.tok t).id) p xs) ∧ ∀ p, Parses (fun t => (s.tok t).id) p xs →
      ∃ m, (s.mach e).compile fuel = some (true, m) ∧ Chain m.next m.saveprefixfirst p.post ∧
        (∀ (V : Type) (val : ℕ → V) (apply : ℕ → V → V → V),
          stackRun (fun t => (s.tok t).id.kind) val apply [] p.post = some [p.eval val apply]) ∧
        ((∀ t ∈ xs, (s.tok t).id.Assigns = false) →
          ∃ (s' : Sess F) (w : ℕ), (s.put e m).runPrefix x ci fuel = s'.finish x fuel ∧
            Chain s'.next (s'.exps e).stacktop [w] ∧ (s'.mach e).read x w =
              p.eval ((s.mach e).read x) (fun t => binOp (s.tok t).id) ∧
            s'.ncalc = s.ncalc + p.post.countP (fun t => (s.tok t).id.Counts) ∧
            (s'.ncalc ≠ 0 → HasAns s.vars → ∃ s'', s'.finish x fuel = (some true, s'') ∧
              varVal s''.vars ansVarName = p.eval ((s.mach e).read x) (fun t => binOp (s.tok t).id))) := by
  refine ⟨hwf.exists_parse, fun p hp => ?_⟩
  obtain ⟨rfl, hshaped, hresp⟩ := hp
  obtain ⟨m, hm, hr, hc⟩ := Mach.compile_spec (m := s.mach e) hfirst hstack hxs
    (fun t ht => ⟨htab t ht, hwf.plain ht⟩) hshaped (hresp.congr fun t ht => (htab t ht).2) hfuel
  refine ⟨m, hm, hc.save, fun _ _ _ => stackRun_post hshaped, fun ha => ?_⟩
  have hmem : ∀ t ∈ p.post, t ∈ p.toks := fun t => Expr.mem_toks_of_mem_post
  have htok : (s.put e m).tok = s.tok := hr.tok_eq
  have hvars : (s.put e m).vars = s.vars := by
    obtain ⟨_, _, _, _, _, rfl⟩ := hr
    rfl
  have hncalc : (s.put e m).ncalc = s.ncalc := by
    obtain ⟨_, _, _, _, _, rfl⟩ := hr
    rfl
  obtain ⟨s', r, w, hrun, hcur', h', hw, hbr, hval, hcount⟩ := runPrefix_parse x ci
    (s := s.put e m) (e := e) (p := p) hcur (by simpa [put] using hc.stack)
    (by simpa [put] using hc.save) (by simpa [htok] using hshaped)
    (fun t ht => by rw [htok]; exact htab t (hmem t ht))
    (fun t ht => by rw [htok]; exact hwf.value_of_post ha ⟨rfl, hshaped, hresp⟩ ht)
    (Nat.lt_of_le_of_lt p.length_post_le hfuel)
  rw [hvars] at h'
  rw [hvars, htok] at hval
  rw [htok, hncalc] at hcount
  have hn : s'.ncalc = r.ncalc := h'.ncalc_eq
  refine ⟨s', w, hrun, hw ▸ h'.stack, ?_, by rw [hn, hcount], fun hne hans => ?_⟩
  · have hread : (s'.mach e).read x w = Reg.value x s.vars r.tok w := by
      rw [Mach.read, h'.resolved_eq, Reg.value]
    exact hread.trans hval
  · obtain ⟨vars', hset, hans'⟩ := setAnsvar_spec hans (Reg.value x s.vars r.tok w)
    obtain ⟨m', hm', -, -⟩ := finish_value fuel hcur' h' hw (.inl rfl) hbr (hn ▸ hne) hset
    exact ⟨_, hm', hans'.trans hval⟩

/-- `2 + 3 * 4` -/
def sumSess : Sess ℤ :=
  (start [⟨ansVarName, .sys, false, 0, -1⟩]).newExp.addInfix 0
    [.fresh .int ['2'], .fresh .plus ['+'], .fresh .int ['3'], .fresh .mult ['*'], .fresh .int ['4']]

theorem calculates_parse_sum : ∃ m s', (sumSess.mach 0).compile 9 = some (true, m) ∧
    (sumSess.put 0 m).runPrefix .nothing (fun s => (none, s)) 9 = (some true, s') ∧
    varVal s'.vars ansVarName = 14 := by
  have hxs : Chain sumSess.infixnext (sumSess.exps 0).infixfirst [0, 1, 2, 3, 4] := by
    simp [sumSess, start, newExp, addInfix]
  have hleft : WellFormed (fun t => (sumSess.tok t).id) [2, 3, 4] :=
    .binary (.operand (a := 2) rfl) rfl (.operand (a := 4) rfl)
  obtain ⟨-, hall⟩ := calculates_parse .nothing (fun s => (none, s)) rfl rfl rfl hxs
    (by simp [Tok.FromTable, sumSess, start, newExp, addInfix, Tok.fresh])
    (.binary (.operand (a := 0) rfl) rfl hleft)
    (show [0, 1, 2, 3, 4].length < 9 by decide)
  obtain ⟨m, hm, -, -, hrun⟩ := hall (.bin (.leaf 0) 1 (.bin (.leaf 2) 3 (.leaf 4))) ⟨rfl, ⟨rfl, rfl, rfl, rfl, rfl⟩,
      trivial, ⟨trivial, trivial, by simp [Expr.top], by simp [Expr.top]⟩, by simp [Expr.top],
      by decide⟩
  obtain ⟨s', w, hs', -, -, hn, hans⟩ := hrun (by decide)
  obtain ⟨s'', hfin, hval⟩ := hans (by rw [hn]; decide) ⟨0, _, by decide, rfl, by decide⟩
  exact ⟨m, s'', hm, hs'.trans hfin, hval⟩

end Sess
end Prj.Ddlus
