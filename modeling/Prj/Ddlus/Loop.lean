import Prj.Ddlus.Flow
import Prj.Ddlus.Reach

/-! The loop of `runprefix` over tokens that calculate values: it does to the session what `Reg.run`
does to the tokens and the stack. -/
namespace Prj.Ddlus
open Prj.Base Function List Option

namespace Reg
variable {F : Type} [Fnum F] {x : Ext F} {vars : List (Var F)} {r r' : Reg F} {ent : ℕ} {xs : List ℕ} {a : ℕ}

theorem shape_look (id : TokId) (v2 : F) (tok : ℕ → Tok F) (t a : ℕ) :
    (look x vars id v2 tok t a).shape = (tok a).shape := by
  unfold look
  split_ifs
  · exact Tok.shape_update (Tok.shape_resolve _ _ _) a
  · rfl

theorem shape_store (r : Reg F) (t : ℕ) (ans : F) (a : ℕ) : ((r.store t ans).tok a).shape = (r.tok a).shape :=
  Tok.shape_update (Tok.shape_settokval _ _) a

theorem shape_step (h : r.step x vars ent = some r') (a : ℕ) : (r'.tok a).shape = (r.tok a).shape := by
  obtain ⟨-, rfl⟩ | ⟨t1, stk, -, -, -, rfl⟩ | ⟨t1, t2, stk, -, -, -, rfl⟩ := step_cases h
  · rfl
  · exact (shape_store _ _ _ a).trans (shape_look _ _ _ _ a)
  · exact (shape_store _ _ _ a).trans ((shape_look _ _ _ _ a).trans (Tok.shape_update (Tok.shape_resolve _ _ _) a))

theorem mem_stk_of_step (h : r.step x vars ent = some r') (ha : a ∈ r'.stk) : a ∈ ent :: r.stk := by
  obtain ⟨-, rfl⟩ | ⟨t1, stk, -, hs, -, rfl⟩ | ⟨t1, t2, stk, -, hs, -, rfl⟩ := step_cases h
  · exact ha
  · rw [hs]
    exact mem_cons_of_mem _ ha
  · rw [hs]
    exact mem_cons_of_mem _ (mem_cons_of_mem _ ha)

theorem ncalc_step (ht : (r.tok ent).FromTable) (h : r.step x vars ent = some r') :
    r'.ncalc = r.ncalc + if (r.tok ent).id.Counts then 1 else 0 := by
  obtain ⟨hop, rfl⟩ | ⟨t1, stk, hop, -, -, rfl⟩ | ⟨t1, t2, stk, hop, -, -, rfl⟩ := step_cases h
  · simp [TokId.Counts, hop, ht.1]
  · simp [TokId.Counts, hop, step1, store]
  · simp [TokId.Counts, hop, step2, store]

theorem ncalc_run (ht : ∀ t ∈ xs, (r.tok t).FromTable) (h : r.run x vars xs = some r') :
    r'.ncalc = r.ncalc + xs.countP fun t => (r.tok t).id.Counts := by
  induction xs generalizing r with
  | nil =>
    cases h
    simp
  | cons ent xs ih =>
    obtain ⟨r1, hr1, hrun⟩ := bind_eq_some_iff.1 h
    have hid : ∀ t, (r1.tok t).id = (r.tok t).id := fun t => Tok.id_eq_of_shape (shape_step hr1 t)
    rw [ih (fun t hin => Tok.fromTable_of_shape (shape_step hr1 t) (ht t (by simp [hin]))) hrun,
      ncalc_step (ht ent (by simp)) hr1, countP_cons]
    simp only [hid]
    split_ifs <;> push_cast <;> omega

theorem mem_stk_of_run (h : r.run x vars xs = some r') (ha : a ∈ r'.stk) : a ∈ xs ∨ a ∈ r.stk := by
  induction xs generalizing r with
  | nil =>
    cases h
    exact .inr ha
  | cons ent xs ih =>
    obtain ⟨r1, hr1, hrun⟩ := bind_eq_some_iff.1 h
    rcases ih hrun with hin | hin
    · exact .inl (by simp [hin])
    · exact (mem_cons.1 (mem_stk_of_step hr1 hin)).imp (by simp_all) id

end Reg

namespace Sess
variable {F : Type} {e : ℕ} {xs ys : List ℕ} {a b c : Sess F} {m : Mach F}

@[simp] theorem mach_record (s : Sess F) (ev : Event) : (s.record ev).mach e = s.mach e := rfl

@[simp] theorem tok_advance (s : Sess F) (ent : ℕ) : (s.advance e ent).tok = s.tok := rfl

theorem mach_advance (s : Sess F) (ent : ℕ) : (s.advance e ent).mach e = { s.mach e with
    prenext := update s.prenext ent (s.next ent), prefixfirst := s.next ent } := by
  rw [advance, mach_record, mach_put]

/-- What expression `e` can reach stays among the tokens `T`, and no other token is written. -/
def Stays (T : Set ℕ) (e : ℕ) (s s' : Sess F) : Prop :=
  Mach.Keeps T Set.univ (s.mach e) (s.mach e) → Mach.Keeps T Set.univ (s'.mach e) (s'.mach e) ∧
      ∀ t ∉ T, s'.tok t = s.tok t ∧ s'.next t = s.next t ∧ s'.prenext t = s.prenext t

namespace Stays
variable {T : Set ℕ} {ent : ℕ}

theorem refl (T : Set ℕ) (e : ℕ) (s : Sess F) : Stays T e s s :=
  fun h => ⟨h, fun _ _ => ⟨rfl, rfl, rfl⟩⟩

theorem trans (hab : Stays T e a b) (hbc : Stays T e b c) : Stays T e a c := by
  intro ha
  obtain ⟨hb, hab⟩ := hab ha
  obtain ⟨hc, hbc⟩ := hbc hb
  refine ⟨hc, fun t ht => ?_⟩
  obtain ⟨htok, hnext, hprenext⟩ := hab t ht
  obtain ⟨htok', hnext', hprenext'⟩ := hbc t ht
  exact ⟨htok'.trans htok, hnext'.trans hnext, hprenext'.trans hprenext⟩

theorem put (h : Mach.Keeps T Set.univ (a.mach e) (a.mach e) →
    Mach.Keeps T Set.univ (a.mach e) m) : Stays T e a (a.put e m) := by
  intro ha
  have hm := h ha
  rw [mach_put]
  exact ⟨hm.self, fun t ht => ⟨hm.tok_eq t ht, hm.next_eq t ht, congrFun hm.prenext_eq t⟩⟩

theorem advance (hfirst : (a.exps e).prefixfirst = some ent) : Stays T e a (a.advance e ent) := by
  intro ha
  have hent : ent ∈ T := ha.first ent hfirst
  rw [mach_advance]
  refine ⟨⟨ha.next ent hent, ha.last, ha.save, ha.top, ha.next, ha.tame, fun _ _ => rfl,
    fun _ _ => rfl, rfl, rfl⟩, fun t ht => ⟨rfl, rfl, ?_⟩⟩
  exact update_of_ne (ne_of_mem_of_not_mem hent ht).symm _ _

end Stays

/-- The tokens `xs` of expression `e` were executed; everything else in the session is as before,
and `prenext` remembers the order. -/
structure Ran (x : Ext F) (e : ℕ) (xs : List ℕ) (s s' : Sess F) : Prop where
  same : ∃ tok next prenext first top n log, s' = { s with
      tok, next, prenext, ncalc := n, log
      exps := update s.exps e { s.exps e with prefixfirst := first, stacktop := top } }
  order : Seg s'.prenext (s.exps e).prefixfirst xs (s'.exps e).prefixfirst
  prenext_eq : ∀ t ∉ xs, s'.prenext t = s.prenext t
  log_eq : s'.log = List.replicate xs.length (.exec e) ++ s.log
  stays : x.Local → ∀ T, Stays T e s s'

namespace Ran
variable {x : Ext F}

theorem refl (x : Ext F) (e : ℕ) (s : Sess F) : Ran x e [] s s :=
  ⟨⟨_, _, _, (s.exps e).prefixfirst, (s.exps e).stacktop, _, _, by rw [update_eq_self]⟩, rfl,
    fun _ _ => rfl, rfl, fun _ T => .refl T e s⟩

theorem trans (hab : Ran x e xs a b) (hbc : Ran x e ys b c) (hdis : ∀ t ∈ xs, t ∉ ys) : Ran x e (xs ++ ys) a c where
  same := by
    obtain ⟨_, _, _, _, _, _, _, rfl⟩ := hab.same
    obtain ⟨tok, next, prenext, first, top, n, log, rfl⟩ := hbc.same
    exact ⟨tok, next, prenext, first, top, n, log, by simp⟩
  order := by
    have hxs : Seg c.prenext (a.exps e).prefixfirst xs (b.exps e).prefixfirst :=
      hab.order.congr fun t ht => hbc.prenext_eq t (hdis t ht)
    exact hxs.append hbc.order
  prenext_eq := by
    intro t ht
    rw [mem_append, not_or] at ht
    rw [hbc.prenext_eq t ht.2, hab.prenext_eq t ht.1]
  log_eq := by
    rw [hbc.log_eq, hab.log_eq, ← append_assoc, replicate_append_replicate, length_append, Nat.add_comm]
  stays hx T := (hab.stays hx T).trans (hbc.stays hx T)

theorem cur_eq (h : Ran x e xs a b) : b.cur = a.cur := by
  obtain ⟨_, _, _, _, _, _, _, rfl⟩ := h.same
  rfl

end Ran

variable {s s' : Sess F} {ent : ℕ}

theorem ran_advance {x : Ext F} (hfirst : (s.exps e).prefixfirst = some ent)
    (hw : Mach.Works ((s.advance e ent).mach e) m)
    (hk : x.Local → ∀ T S b, ent ∈ T → Mach.Keeps T S b ((s.advance e ent).mach e) →
      Mach.Keeps T S b m) : Ran x e [ent] s ((s.advance e ent).put e m) := by
  obtain ⟨tok, next, top, n, rfl⟩ := hw
  refine ⟨⟨tok, next, update s.prenext ent (s.next ent), s.next ent, top, n, .exec e :: s.log, ?_⟩,
    ⟨hfirst, ?_⟩, fun t ht => update_of_ne (by simpa using ht) _ _, rfl, fun hx T h => ?_⟩
  · simp [put, advance, record, mach]
  · simp [Seg, put, advance, record, mach]
  · exact (Stays.advance hfirst).trans (.put (hk hx T _ _ (h.first ent hfirst))) h

variable {vars vars' : List (Var F)} {r r' : Reg F} {rest below : List ℕ}

theorem holds_advance (h : Mach.Holds vars (s.mach e) r (ent :: rest)) :
    Mach.Holds vars ((s.advance e ent).mach e) r rest := by
  rw [mach_advance]
  exact ⟨h.tok_eq, h.ncalc_eq, h.vars_eq, h.todo.2, h.stack, h.nodup.sublist (by simp)⟩

variable [Fnum F] {x : Ext F} (ci : Sess F → Res F Bool) {n w : ℕ} (fuel : ℕ)

theorem runTokens_calc (hcur : s.cur = some e) (hfirst : (s.exps e).prefixfirst = some ent)
    (hty : (s.tok ent).type ≠ .func ∧ (s.tok ent).type ≠ .command ∧ (s.tok ent).type ≠ .block)
    (hm : ((s.advance e ent).mach e).calcTok x ent = some (true, m)) (n : ℕ) :
    runTokens x ci fuel (n + 1) s = runTokens x ci fuel n ((s.advance e ent).put e m) := by
  have hrun : (s.advance e ent).runTok x ci fuel e ent = (some .go, (s.advance e ent).put e m) := by
    unfold runTok
    split
    · exact absurd ‹_› hty.1
    · exact absurd ‹_› hty.2.1
    · exact absurd ‹_› hty.2.2
    · simp [hm, Res.within, Res.bind]
  simp only [runTokens, hcur, hfirst, hrun, Res.bind]

theorem runTokens_step (hcur : s.cur = some e) (h : Mach.Holds vars (s.mach e) r (ent :: rest))
    (ht : (r.tok ent).FromTable) (hv : (r.tok ent).id.IsOperand = true ∨ (r.tok ent).id.IsOp = true)
    (hbr : ∀ t ∈ r.stk, (r.tok t).id ≠ .brOpen) (hs : r.step x vars ent = some r') :
    ∃ s', (∀ n, runTokens x ci fuel (n + 1) s = runTokens x ci fuel n s') ∧
      Mach.Holds vars (s'.mach e) r' rest ∧ Ran x e [ent] s s' := by
  have hfirst : (s.exps e).prefixfirst = some ent := h.todo.1
  have htok : s.tok = r.tok := h.tok_eq
  have hent : ent ∉ r.stk ++ rest := by
    have hn := h.nodup
    rw [nodup_middle] at hn
    exact (nodup_cons.1 hn).1
  obtain ⟨m, hm, hw, hm'⟩ := Mach.calcTok_spec (x := x) (holds_advance h) ht hv hent hbr hs
  refine ⟨(s.advance e ent).put e m, runTokens_calc ci fuel hcur hfirst ?_ hm, by rwa [mach_put],
    ran_advance hfirst hw fun hx T S b hT hk => hk.calcTok hx hT hm⟩
  rw [htok, ht.1]
  exact TokId.type_of_value hv

theorem runTokens_run (hcur : s.cur = some e) (h : Mach.Holds vars (s.mach e) r (xs ++ rest))
    (ht : ∀ t ∈ xs, (r.tok t).FromTable) (hv : ∀ t ∈ xs, (r.tok t).id.IsOperand = true ∨ (r.tok t).id.IsOp = true)
    (hbr : ∀ t ∈ r.stk, (r.tok t).id ≠ .brOpen) (hs : r.run x vars xs = some r') :
    ∃ s', (∀ n, runTokens x ci fuel (n + xs.length) s = runTokens x ci fuel n s') ∧
      Mach.Holds vars (s'.mach e) r' rest ∧ Ran x e xs s s' := by
  induction xs generalizing s r with
  | nil =>
    cases hs
    exact ⟨s, fun _ => rfl, h, .refl x e s⟩
  | cons ent xs ih =>
    obtain ⟨r1, hr1, hrun⟩ := bind_eq_some_iff.1 hs
    obtain ⟨s1, hs1, h1, hran1⟩ := runTokens_step ci fuel hcur h (ht ent (by simp)) (hv ent (by simp)) hbr hr1
    have hid : ∀ t, (r1.tok t).id = (r.tok t).id := fun t =>
      Tok.id_eq_of_shape (Reg.shape_step hr1 t)
    have hent : (r.tok ent).id ≠ .brOpen := by
      intro heq
      simpa [heq, TokId.IsOperand, TokId.IsOp] using hv ent (by simp)
    have hbr1 : ∀ t ∈ r1.stk, (r1.tok t).id ≠ .brOpen := by
      intro t hmem
      rw [hid]
      rcases mem_cons.1 (Reg.mem_stk_of_step hr1 hmem) with rfl | hmem
      · exact hent
      · exact hbr t hmem
    obtain ⟨s', hs', h', hran⟩ := ih (by rw [hran1.cur_eq, hcur]) h1
      (fun t hin => Tok.fromTable_of_shape (Reg.shape_step hr1 t) (ht t (by simp [hin])))
      (fun t hin => by rw [hid]; exact hv t (by simp [hin])) hbr1 hrun
    refine ⟨s', fun n => ?_, h', hran1.trans hran ?_⟩
    · rw [length_cons, ← Nat.add_assoc, hs1, hs']
    · have hn := (nodup_append.1 h.nodup).2.1
      intro t heq hin
      obtain rfl := mem_singleton.1 heq
      exact (nodup_cons.1 hn).1 (by simp [hin])

/-- The session when the loop of `runprefix` starts. -/
def ready (s : Sess F) (e : ℕ) : Sess F :=
  s.put e { s.mach e with prefixfirst := (s.exps e).saveprefixfirst }

omit [Fnum F] in
theorem popAll_mach (hstack : (s.exps e).stacktop = none) (k : ℕ) : (s.mach e).popAll (k + 1) = some (s.mach e) := by
  have htop : (s.mach e).stacktop = none := hstack
  simp [Mach.popAll, Mach.popWhile, htop]

theorem runPrefix_of_loop (hcur : s.cur = some e) (hstack : (s.exps e).stacktop = none)
    (h : runTokens x ci fuel fuel (s.ready e) = (some .go, s')) : s.runPrefix x ci fuel = s'.finish x fuel := by
  cases fuel with
  | zero => simp [runTokens] at h
  | succ k =>
    simp only [runPrefix, hcur, popAll_mach hstack]
    exact congrArg (Res.bind · _) h

omit [Fnum F] in
theorem holds_ready (hstack : (s.exps e).stacktop = none) (hxs : Chain s.next (s.exps e).saveprefixfirst xs) :
    Mach.Holds s.vars ((s.ready e).mach e) ⟨s.tok, [], s.ncalc⟩ xs := by
  rw [ready, mach_put]
  exact ⟨rfl, rfl, rfl, hxs, hstack, by simpa using hxs.nodup⟩

theorem runPrefix_run (hcur : s.cur = some e) (hstack : (s.exps e).stacktop = none)
    (hxs : Chain s.next (s.exps e).saveprefixfirst xs) (ht : ∀ t ∈ xs, (s.tok t).FromTable)
    (hv : ∀ t ∈ xs, (s.tok t).id.IsOperand = true ∨ (s.tok t).id.IsOp = true)
    (hfuel : xs.length < fuel) (hs : Reg.run x s.vars ⟨s.tok, [], s.ncalc⟩ xs = some r') :
    ∃ s', s.runPrefix x ci fuel = s'.finish x fuel ∧ Mach.Holds s.vars (s'.mach e) r' [] ∧
      Ran x e xs (s.ready e) s' := by
  have hready := holds_ready hstack hxs
  rw [← append_nil xs] at hready
  obtain ⟨s', hs', h', hran⟩ := runTokens_run ci fuel (s := s.ready e) hcur hready ht hv (by simp) hs
  have hcur' : s'.cur = some e := hran.cur_eq.trans hcur
  have hdone : (s'.exps e).prefixfirst = none := h'.todo
  refine ⟨s', runPrefix_of_loop ci fuel hcur hstack ?_, h', hran⟩
  obtain ⟨k, hk⟩ := Nat.exists_eq_add_of_lt hfuel
  conv_lhs => arg 4; rw [hk, show xs.length + k + 1 = k + 1 + xs.length by omega]
  rw [hs']
  simp only [runTokens, hcur', hdone]

/-- The end of `runprefix` when one value is on the stack, or two and the lower one is in the token
of a variable. -/
theorem finish_value (hcur : s.cur = some e) (h : Mach.Holds vars (s.mach e) r []) (hstk : r.stk = w :: below)
    (hbelow : below = [] ∨ ∃ v, below = [v] ∧ (r.tok v).id = .var) (hw : (r.tok w).id ≠ .brOpen)
    (hn : r.ncalc ≠ 0) (hans : setAnsvar vars (Reg.value x vars r.tok w) = some vars') :
    ∃ m, s.finish x fuel = (some true, s.put e { m with vars := vars' }) ∧ Mach.Works (s.mach e) m ∧
      Mach.Holds vars m ⟨update r.tok w (Reg.resolved x vars r.tok w), [], r.ncalc⟩ [] := by
  obtain ⟨m1, hm1, h1, hw1⟩ := Mach.poptok_spec h hstk hw
  have hn' : s.ncalc ≠ 0 := by
    have hcount : s.ncalc = r.ncalc := h.ncalc_eq
    rwa [hcount]
  rcases hbelow with rfl | ⟨v, rfl, hv⟩
  · have hm2 := Mach.poptok_nil h1 rfl
    obtain ⟨m, hm, hw2, hm'⟩ := Mach.tokval_spec (x := x) h1 w
    refine ⟨m, ?_, hw1.trans hw2, hm'⟩
    simp only [finish, hcur, if_pos hn', hm1, hm2, answer, hm, hm'.vars_eq, hans, map_some, Res.within]
  · obtain ⟨m2, hm2, h2, hw2⟩ := Mach.poptok_spec h1 rfl (by simp [hv])
    obtain ⟨m, hm, hw3, hm'⟩ := Mach.tokval_spec (x := x) h2 w
    have hid : (m2.tok v).id = .var := by rw [h2.tok_eq, hv]
    refine ⟨m, ?_, hw1.trans (hw2.trans hw3), hm'⟩
    simp only [finish, hcur, if_pos hn', hm1, hm2, hid, true_or, if_true, answer, hm, hm'.vars_eq,
      hans, map_some, Res.within]

end Sess
end Prj.Ddlus
