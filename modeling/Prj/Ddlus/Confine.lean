import Prj.Ddlus.Region

/-! A run of a block that does not jump stays in its own lists, expressions and tokens, and in those
that are not in use yet. -/
namespace Prj.Ddlus
open Prj.Base Function

namespace Sess
variable {F α β : Type} {R : Region} {S : Set (List Char)} {s₀ s : Sess F} {e ent : ℕ}

namespace Keeps

theorem bind {r : Res F α} {k : α → Sess F → Res F β} (h : Keeps R S s₀ r.2)
    (hk : ∀ a s, Keeps R S s₀ s → Keeps R S s₀ (k a s).2) : Keeps R S s₀ (r.bind k).2 := by
  obtain ⟨_ | a, s⟩ := r
  · exact h
  · exact hk a s h

section
variable (h : Keeps R S s₀ s)
include h

theorem within {r : Option (α × Mach F)} (he : e ∈ R.exps)
    (hr : ∀ a, r = some a → Mach.Keeps R.toks S (s.mach e) a.2) : Keeps R S s₀ (Res.within s e r).2 := by
  match r with
  | none => exact h
  | some (a, m) => exact h.put he (hr (a, m) rfl)

theorem lift {r : Option (Sess F)} (hr : ∀ s', r = some s' → Keeps R S s₀ s') : Keeps R S s₀ (Res.lift s r).2 := by
  match r with
  | none => exact h
  | some s' => exact hr s' rfl

theorem popOr {msg : Msg} {k : ℕ → Sess F → Res F Bool} (he : e ∈ R.exps)
    (hk : ∀ tk s, tk ∈ R.toks → Keeps R S s₀ s → Keeps R S s₀ (k tk s).2) : Keeps R S s₀ (s.popOr e msg k).2 := by
  have hpop := (h.mach he).poptok
  unfold Sess.popOr
  split
  next tk m hm =>
    rw [hm] at hpop
    exact hk tk _ (by simpa using hpop.2) (h.put he hpop.1)
  next m hm =>
    rw [hm] at hpop
    exact (h.put he hpop.1).print msg

theorem labl (he : e ∈ R.exps) : Keeps R S s₀ (s.labl e).2 := by
  refine h.popOr he fun tk s _ h => ?_
  dsimp only
  split_ifs
  · exact h.print _
  · refine ⟨Closed.record ?_ _ fun _ _ => rfl, h.pre, h.auto⟩
    exact h.toClosed.congr rfl

theorem advance (he : e ∈ R.exps) (hent : ent ∈ R.toks) : Keeps R S s₀ (s.advance e ent) := by
  have ha := h.exps e he
  have hnext := (h.links ent hent).1
  have hlink : Closed R S s₀ { s with prenext := update s.prenext ent (s.next ent) } := by
    exact { h with links := fun t ht => ⟨(h.links t ht).1,
      forall_mem_update (fun t ht => (h.links t ht).2) hnext t ht⟩ }
  have hexp := hlink.setExp he (a := { s.exps e with prefixfirst := s.next ent }) { ha with first := hnext }
  have hput : Closed R S s₀ (s.put e { s.mach e with
      prenext := update s.prenext ent (s.next ent), prefixfirst := s.next ent }) := hexp.congr rfl
  exact ⟨hput.record _ fun _ _ => rfl, h.pre, h.auto⟩

end

variable [Fnum F] {x : Ext F} {ci : Sess F → Res F Bool} {fuel ent block : ℕ}

theorem doJump (h : Keeps R S s₀ s) (he : e ∈ R.exps) : Keeps R S s₀ (s.doJump x e).2 := by
  have hpop := (h.mach he).poptok
  unfold Sess.doJump
  split
  next m hm =>
    rw [hm] at hpop
    exact (h.put he hpop.1).congr rfl h.pre rfl
  next tk m hm =>
    rw [hm] at hpop
    exact (h.put he (hpop.1.tokval (by simpa using hpop.2))).congr rfl h.pre rfl

section
variable (hS : x.Tame S) (hci : ∀ s, Keeps R S s₀ s → Keeps R S s₀ (ci s).2)
include hS hci

section
variable (h : Keeps R S s₀ s) (he : e ∈ R.exps)
include h he

theorem runBranch {cond : IfCond} (hblock : block ∈ R.toks) : Keeps R S s₀ (s.runBranch x ci fuel e block cond).2 := by
  unfold Sess.runBranch
  generalize hready : ({ s with autorun := .notdef, autopre := none }.setIfcond e cond : Sess F) =
    ready
  have hr : Keeps R S s₀ ready := by
    have hauto : Closed R S s₀ { s with autorun := .notdef, autopre := none } :=
      { h with }
    exact hready ▸ ⟨hauto.setIfcond he cond, h.pre, ptrIn_none⟩
  refine bind (hr.lift fun s1 hs1 => ?_) fun _ s1 h1 => bind (hci _ ?_) fun _ s2 h2 => ?_
  · split at hs1
    · obtain ⟨⟨p, s'⟩, hs', rfl⟩ := Option.map_eq_some_iff.1 hs1
      obtain ⟨hc, hp, hauto⟩ := hr.toClosed.precompile hS hr.auto (hr.tame block hblock).2 hs'
      exact ⟨(hc.setBranch he hp).congr rfl, hp, hauto⟩
    next p hp => exact (hr.setPre ((hr.exps e he).branch p hp)).restorePrefix hs1
  · refine ⟨Closed.record ?_ _ fun a ha => if_neg ?_, h1.pre, h1.auto⟩
    · exact h1.toClosed.congr rfl
    · rintro rfl
      exact ha he
  · have hback : Keeps R S s₀ { s2 with
        depth := s.depth, autorun := s.autorun, autopre := s.autopre, pre := s.pre } :=
      ⟨{ h2 with }, h.pre, h.auto⟩
    exact (hback.setCur (by simpa using he)).setIfcond he _

theorem runIf : Keeps R S s₀ (s.runIf x ci fuel e).2 := by
  refine h.popOr he fun block s hblock h => h.popOr he fun logic s hlogic h => ?_
  have hread := h.put he ((h.mach he).tokval (x := x) hlogic)
  dsimp only
  split_ifs
  · exact hread.runBranch hS hci he hblock
  · exact hread.setIfcond he _

theorem ifFn : Keeps R S s₀ (s.ifFn x ci fuel e).2 := by
  unfold Sess.ifFn
  split_ifs
  · exact h.print _
  · exact h.runIf hS hci he

theorem elseIfFn : Keeps R S s₀ (s.elseIfFn x ci fuel e).2 := by
  unfold Sess.elseIfFn
  split
  · exact h.put he (h.mach he).poptok.1.poptok.1
  · exact h.runIf hS hci he
  · exact h.print _

theorem elseFn : Keeps R S s₀ (s.elseFn x ci fuel e).2 := by
  unfold Sess.elseFn
  split
  · exact h.popOr he fun _ _ _ h => h.setIfcond he _
  · refine h.popOr he fun block _ hblock h => ?_
    exact bind (h.runBranch hS hci he hblock) fun _ _ h => h.setIfcond he _
  · exact h.print _

end

variable (hx : x.Local) {n : ℕ}
include hx

section
variable (h : Keeps R S s₀ s) (he : e ∈ R.exps) (hent : ent ∈ R.toks)
include h he hent

theorem runFn : Keeps R S s₀ (s.runFn x ci fuel e ent).2 := by
  have hgoto := (h.tame ent hent).1
  unfold Sess.runFn
  split
  · exact h.labl he
  next hid => exact absurd hid hgoto
  · exact h.congr rfl h.pre rfl
  · exact h.doJump he
  · exact h.ifFn hS hci he
  · exact h.elseIfFn hS hci he
  · exact h.elseFn hS hci he
  · exact h.print _
  · exact h.within he fun a ha => hx.fn (h.mach he) hent ha

theorem runTok : Keeps R S s₀ (s.runTok x ci fuel e ent).2 := by
  unfold Sess.runTok
  split
  · exact bind (h.runFn hS hci hx he hent) fun _ _ h => h
  · exact bind (h.within he fun a ha => hx.cmd (h.mach he) hent ha) fun _ _ h => h
  · exact h.put he ((h.mach he).pushCalc hent)
  · exact bind (h.within he fun a ha => (h.mach he).calcTok hx hent ha) fun _ _ h => h

end

theorem runTokens (h : Keeps R S s₀ s) : Keeps R S s₀ (Sess.runTokens x ci fuel n s).2 := by
  induction n generalizing s with
  | zero => exact h
  | succ n ih =>
    rw [Sess.runTokens]
    split
    · exact h
    next e hcur =>
      have he := h.mem_cur hcur
      split
      · exact h
      next ent hfirst =>
        have hent : ent ∈ R.toks := (h.exps e he).first ent hfirst
        refine bind ((h.advance he hent).runTok hS hci hx he hent) fun f s h => ?_
        cases f with
        | go => exact ih h
        | ret b => exact h

omit hS hci hx in
theorem answer {m : Mach F} (h : Keeps R S s₀ s) (he : e ∈ R.exps)
    (hm : Mach.Keeps R.toks S (s.mach e) m) (hent : ent ∈ R.toks) : Keeps R S s₀ (s.answer x e m ent).2 := by
  refine h.within he fun a ha => ?_
  obtain ⟨vars, -, rfl⟩ := Option.map_eq_some_iff.1 ha
  exact (hm.tokval hent).report _ _ _ _

omit hS hci hx in
theorem finish (h : Keeps R S s₀ s) : Keeps R S s₀ (s.finish x fuel).2 := by
  unfold Sess.finish
  split
  · exact h
  next e hcur =>
    have he := h.mem_cur hcur
    have hpop := (h.mach he).poptok
    split_ifs
    · split
      next m hm =>
        rw [hm] at hpop
        exact (h.put he hpop.1).setIfcond he _
      next t m hm =>
        rw [hm] at hpop
        have ht : t ∈ R.toks := by simpa using hpop.2
        have hpop2 := hpop.1.poptok
        split
        next m2 hm2 =>
          rw [hm2] at hpop2
          exact h.answer he hpop2.1 ht
        next t2 m2 hm2 =>
          rw [hm2] at hpop2
          split_ifs
          · exact h.answer he hpop2.1 ht
          · exact (h.put he hpop2.1).print _
    · refine h.within he fun a ha => ?_
      obtain ⟨m, hm, rfl⟩ := Option.map_eq_some_iff.1 ha
      exact (h.mach he).popWhile hm
    · exact h

theorem runPrefix (h : Keeps R S s₀ s) : Keeps R S s₀ (s.runPrefix x ci fuel).2 := by
  unfold Sess.runPrefix
  split
  · exact h
  next e hcur =>
    have he := h.mem_cur hcur
    split
    · exact h
    next m hm =>
      have hpop := (h.mach he).popWhile hm
      refine bind ((h.put he (hpop.setFirst hpop.save)).runTokens hS hci hx) fun f s h => ?_
      cases f with
      | go => exact h.finish
      | ret b => exact h

theorem ciLoop (h : Keeps R S s₀ s) : Keeps R S s₀ (Sess.ciLoop x ci fuel n s).2 := by
  induction n generalizing s with
  | zero => exact h
  | succ n ih =>
    unfold Sess.ciLoop
    split
    · exact h
    next e hcur =>
      have he := h.mem_cur hcur
      split_ifs
      · exact (h.setCur ptrIn_none).congr rfl h.pre rfl
      · exact ih ((h.setCur (h.exps e he).next).congr rfl h.pre rfl)
      · refine bind (h.runPrefix hS hci hx) fun b s h => ?_
        cases b with
        | false => exact h
        | true =>
          refine bind (r := if s.goto then _ else _) ?_ fun _ s h => ?_
          · split_ifs
            · refine bind (h.lift fun s' hs' => ?_) fun _ s' h' => ?_
              · exact restorePrefix (s := { s with goto := false }) (h.congr rfl h.pre rfl) hs'
              · exact h'.setCur (h.lists _ h.pre).cur
            · exact h
          · split
            · exact h
            next e hcur => exact ih (h.setCur (h.exps e (h.mem_cur hcur)).next)

omit hS hx in
theorem afterCi (h : Keeps R S s₀ s) : Keeps R S s₀ (s.afterCi ci fuel).2 := by
  unfold Sess.afterCi
  split
  next autopre _ hauto =>
    have hcur := h.setCur (h.lists _ h.pre).first
    refine bind (hci _ ?_) fun _ s1 h1 => bind (h1.lift fun _ => h1.restorePrefix) fun _ s2 h2 => ?_
    · exact hcur.congr rfl (h.auto autopre hauto) rfl
    · have hback := (h2.setPre h.pre).setCur (hcur.lists _ hcur.pre).cur
      split
      next e he => exact hback.setIfcond (hcur.mem_cur he) _
      · exact hback
  · exact h.congr rfl h.pre rfl
  · exact h.congr rfl h.pre rfl
  · exact h

end

theorem runCi (hS : x.Tame S) (hx : x.Local) (n : ℕ) (h : Keeps R S s₀ s) : Keeps R S s₀ (Sess.runCi x n s).2 := by
  induction n generalizing s with
  | zero => exact h
  | succ n ih =>
    have hci : ∀ s, Keeps R S s₀ s → Keeps R S s₀ (Sess.runCi x n s).2 := fun _ => ih
    refine bind ((h.setCur (h.lists _ h.pre).first).ciLoop hS hci hx) fun b s h => ?_
    split_ifs
    · exact h.afterCi hci
    · exact h

end Keeps
end Sess
end Prj.Ddlus
