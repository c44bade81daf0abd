import Mathlib.Data.Set.Basic
import Prj.Ddlus.Calc

/-! What calculating and compiling can reach: the pointers of an expression stay among a set of
tokens, and no other token is written. -/
namespace Prj.Ddlus
open Prj.Base Function Option

def PtrIn (A : Set ℕ) (p : Option ℕ) : Prop := ∀ a ∈ p, a ∈ A

@[simp] theorem ptrIn_none {A : Set ℕ} : PtrIn A none := by simp [PtrIn]

@[simp] theorem ptrIn_some {A : Set ℕ} {a : ℕ} : PtrIn A (some a) ↔ a ∈ A := by simp [PtrIn]

theorem forall_mem_update {β : Type} {T : Set ℕ} {P : β → Prop} {f : ℕ → β} {t : ℕ} {a : β}
    (h : ∀ u ∈ T, P (f u)) (ha : P a) : ∀ u ∈ T, P (update f t a u) :=
  (forall_update_iff f fun u b => u ∈ T → P b).2 ⟨fun _ => ha, fun u _ => h u⟩

namespace Mach
variable {F : Type} {T : Set ℕ} {S : Set (List Char)} {b m : Mach F} {t : ℕ}

/-- The pointers of `m` stay among the tokens `T`, which do not jump and have texts in `S`; the other
tokens are as they were in `b`. -/
structure Keeps (T : Set ℕ) (S : Set (List Char)) (b m : Mach F) : Prop where
  first : PtrIn T m.prefixfirst
  last : PtrIn T m.prefixlast
  save : PtrIn T m.saveprefixfirst
  top : PtrIn T m.stacktop
  next : ∀ t ∈ T, PtrIn T (m.next t)
  tame : ∀ t ∈ T, (m.tok t).id ≠ .goto ∧ (m.tok t).str ∈ S
  tok_eq : ∀ t ∉ T, m.tok t = b.tok t
  next_eq : ∀ t ∉ T, m.next t = b.next t
  prenext_eq : m.prenext = b.prenext
  infixnext_eq : m.infixnext = b.infixnext

namespace Keeps

theorem self (h : Keeps T S b m) : Keeps T S m m :=
  { h with tok_eq := fun _ _ => rfl, next_eq := fun _ _ => rfl, prenext_eq := rfl, infixnext_eq := rfl }

theorem report (h : Keeps T S b m) (vars : List (Var F)) (ncalc calcreg : ℤ) (out : List Msg) :
    Keeps T S b { m with vars, ncalc, calcreg, out } :=
  { h with }

variable {p : Option ℕ}

section
variable (h : Keeps T S b m)
include h

theorem setTop (hp : PtrIn T p) : Keeps T S b { m with stacktop := p } :=
  { h with top := hp }

theorem setFirst (hp : PtrIn T p) : Keeps T S b { m with prefixfirst := p } :=
  { h with first := hp }

theorem setNext (ht : t ∈ T) (hp : PtrIn T p) : Keeps T S b { m with next := update m.next t p } := by
  refine { h with next := forall_mem_update h.next hp, next_eq := fun u hu => ?_ }
  exact (update_of_ne (ne_of_mem_of_not_mem ht hu).symm _ _).trans (h.next_eq u hu)

end

section
variable (h : Keeps T S b m) (ht : t ∈ T) {k : Tok F}
include h ht

theorem setTok (hid : k.id ≠ .goto) (hstr : k.str ∈ S) : Keeps T S b { m with tok := update m.tok t k } := by
  refine { h with
    tame := forall_mem_update (P := fun k : Tok F => k.id ≠ .goto ∧ k.str ∈ S) h.tame ⟨hid, hstr⟩
    tok_eq := fun u hu => ?_ }
  exact (update_of_ne (ne_of_mem_of_not_mem ht hu).symm _ _).trans (h.tok_eq u hu)

theorem setShape (hk : k.shape = (m.tok t).shape) : Keeps T S b { m with tok := update m.tok t k } := by
  simp only [Tok.shape, Prod.mk.injEq] at hk
  refine h.setTok ht ?_ ?_
  · rw [hk.1]
    exact (h.tame t ht).1
  · rw [hk.2.2.2.1]
    exact (h.tame t ht).2

theorem pushCalc : Keeps T S b (m.pushCalc t) :=
  (h.setNext ht h.top).setTop (by simpa using ht)

end

theorem poptok (h : Keeps T S b m) : Keeps T S b (Mach.poptok m).2 ∧ PtrIn T (Mach.poptok m).1 := by
  unfold Mach.poptok
  split
  · exact ⟨h, by simp⟩
  next tk htop =>
    have htk : tk ∈ T := h.top tk htop
    split_ifs
    · exact ⟨(h.setTop (h.next tk htk)).setNext htk ptrIn_none, by simpa using htk⟩
    · exact ⟨h.setTop (h.next tk htk), by simp⟩

/-! The lists of tokens. -/

variable {m' : Mach F}

theorem insertPre (h : Keeps T S b m) (ht : t ∈ T) (hm : Mach.insertPre m t = some m') : Keeps T S b m' := by
  have hnone := h.setNext ht ptrIn_none
  unfold Mach.insertPre at hm
  dsimp only at hm
  split at hm
  · cases hm
    exact { hnone.setFirst (by simpa using ht) with last := by simpa using ht }
  · split at hm
    · cases hm
    next last hlast =>
      cases hm
      exact { hnone.setNext (h.last last hlast) (by simpa using ht) with last := by simpa using ht }

theorem popToPre (h : Keeps T S b m) (hm : Mach.popToPre m = some m') : Keeps T S b m' := by
  unfold Mach.popToPre at hm
  split at hm
  · exact some.inj hm ▸ h
  next tk htop =>
    have htk : tk ∈ T := h.top tk htop
    have hpop := h.setTop (h.next tk htk)
    split_ifs at hm
    · exact hpop.insertPre htk hm
    · exact some.inj hm ▸ hpop

variable {fuel n : ℕ}

theorem popWhile {go : Tok F → Bool} (h : Keeps T S b m) (hm : Mach.popWhile go fuel m = some m') : Keeps T S b m' := by
  induction fuel generalizing m with
  | zero => cases hm
  | succ fuel ih =>
    rw [Mach.popWhile] at hm
    split at hm
    · exact some.inj hm ▸ h
    · split_ifs at hm
      · obtain ⟨m1, hm1, hm⟩ := bind_eq_some_iff.1 hm
        exact ih (h.popToPre hm1) hm
      · exact some.inj hm ▸ h

variable {r : Bool × Mach F} {U : Set ℕ}

section
variable (h : Keeps T S b m)
include h

theorem popToBr (hm : Mach.popToBr fuel m = some r) : Keeps T S b r.2 := by
  obtain ⟨m1, hm1, hm⟩ := bind_eq_some_iff.1 hm
  have h1 := h.popWhile hm1
  split at hm
  · exact some.inj hm ▸ h1
  next tk htop =>
    cases hm
    exact h1.setTop (h1.next tk (h1.top tk htop))

theorem popToAbr (hm : Mach.popToAbr fuel m = some r) : Keeps T S b r.2 := by
  obtain ⟨m1, hm1, hm⟩ := bind_eq_some_iff.1 hm
  have h1 := h.popWhile hm1
  split at hm
  · exact some.inj hm ▸ h1
  · obtain ⟨m2, hm2, hm⟩ := bind_eq_some_iff.1 hm
    exact some.inj hm ▸ h1.popToPre hm2

theorem popToBrForCol (hm : Mach.popToBrForCol fuel m = some r) : Keeps T S b r.2 := by
  obtain ⟨m1, hm1, hm⟩ := bind_eq_some_iff.1 hm
  have h1 := h.popWhile hm1
  split at hm
  · exact some.inj hm ▸ h1
  next tk htop =>
    split_ifs at hm
    · cases hm
      exact h1.setTop (h1.next tk (h1.top tk htop))
    · exact some.inj hm ▸ h1

theorem push (ht : t ∈ T) (hm : Mach.push fuel m t = some m') : Keeps T S b m' := by
  unfold Mach.push at hm
  dsimp only at hm
  split_ifs at hm
  · obtain ⟨m1, hm1, hm⟩ := bind_eq_some_iff.1 hm
    cases hm
    exact (h.popWhile hm1).pushCalc ht
  · cases hm
    exact h.pushCalc ht

end

theorem matched {str : List Char} {o : Option (Bool × Mach F)}
    {k : Mach F → Option (Bool × Mach F)} (ho : ∀ r, o = some r → Keeps T S b r.2)
    (hk : ∀ m r, Keeps T S b m → k m = some r → Keeps T S b r.2)
    (hm : Mach.matched str o k = some r) : Keeps T S b r.2 := by
  obtain ⟨bm, hbm, hm⟩ := bind_eq_some_iff.1 hm
  split_ifs at hm
  · exact hk _ _ (ho bm hbm) hm
  · cases hm
    exact (ho bm hbm).report _ _ _ _

theorem infixStep (h : Keeps T S b m) (ht : t ∈ T) (hm : Mach.infixStep fuel m t = some r) : Keeps T S b r.2 := by
  have hpush : ∀ {m : Mach F}, Keeps T S b m → ∀ r, (Mach.push fuel m t).map (true, ·) = some r → Keeps T S b r.2 := by
    intro m h r hr
    obtain ⟨m', hm', rfl⟩ := map_eq_some_iff.1 hr
    exact h.push ht hm'
  unfold Mach.infixStep at hm
  dsimp only at hm
  split at hm
  · exact hpush h r hm
  · exact hpush h r hm
  · exact hpush h r hm
  · exact hpush h r hm
  · exact hpush h r hm
  · split at hm
    · refine matched (fun r hr => h.popToBr hr) (fun m r hm hr => ?_) hm
      exact some.inj hr ▸ hm
    · refine matched (fun r hr => h.popToAbr hr) (fun m r hm hr => ?_) hm
      cases hr
      exact hm.report _ _ _ _
    · exact hpush (h.report _ _ _ _) r hm
    · exact hpush h r hm
  · split at hm
    · exact matched (fun r hr => h.popToBrForCol hr) (fun m r hm hr => hpush hm r hr) hm
    · exact some.inj hm ▸ h
  · obtain ⟨m', hm', rfl⟩ := map_eq_some_iff.1 hm
    exact h.insertPre ht hm'

theorem pushInfix (hUT : U ⊆ T) (hU : ∀ t ∈ U, PtrIn U (b.infixnext t)) (h : Keeps T S b m) (hp : PtrIn U p)
    (hm : Mach.pushInfix fuel n p m = some r) : Keeps T S b r.2 := by
  induction n generalizing m p with
  | zero => cases hm
  | succ n ih =>
    cases p with
    | none => exact some.inj hm ▸ h
    | some cur =>
      have hcur : cur ∈ U := by simpa using hp
      rw [Mach.pushInfix] at hm
      split at hm
      next m' hm' =>
        have h' := h.infixStep (hUT hcur) hm'
        refine ih h' ?_ hm
        rw [h'.infixnext_eq]
        exact hU cur hcur
      · exact h.infixStep (hUT hcur) hm

theorem flushStack (h : Keeps T S b m) (hm : Mach.flushStack fuel m = some m') : Keeps T S b m' := by
  induction fuel generalizing m with
  | zero => cases hm
  | succ fuel ih =>
    have hpop := h.poptok
    rw [Mach.flushStack] at hm
    split at hm
    next m1 hm1 =>
      rw [hm1] at hpop
      exact some.inj hm ▸ hpop.1
    next tk m1 hm1 =>
      rw [hm1] at hpop
      obtain ⟨m2, hm2, hm⟩ := bind_eq_some_iff.1 hm
      exact ih (hpop.1.insertPre (by simpa using hpop.2) hm2) hm

theorem compile (hUT : U ⊆ T) (hU : ∀ t ∈ U, PtrIn U (b.infixnext t)) (h : Keeps T S b m) (hp : PtrIn U m.infixfirst)
    (hm : Mach.compile fuel m = some r) : Keeps T S b r.2 := by
  unfold Mach.compile at hm
  split at hm
  next m1 hm1 =>
    obtain ⟨m2, hm2, rfl⟩ := map_eq_some_iff.1 hm
    have h2 := (h.pushInfix hUT hU hp hm1).flushStack hm2
    exact { h2 with save := h2.first }
  · exact h.pushInfix hUT hU hp hm

variable [Fnum F]

section
variable (h : Keeps T S b m) (hT : ∀ t ∈ T, PtrIn T (b.prenext t))
include h hT

theorem restoreWalk (hp : PtrIn T p) (hm : Mach.restoreWalk fuel p m = some m') : Keeps T S b m' := by
  induction fuel generalizing m p with
  | zero => cases hm
  | succ fuel ih =>
    cases p with
    | none => exact some.inj hm ▸ h
    | some ent =>
      have hent : ent ∈ T := by simpa using hp
      have hpre : PtrIn T (m.prenext ent) := by
        rw [h.prenext_eq]
        exact hT ent hent
      have hshape : (restoreTok (m.tok ent)).id = (m.tok ent).id ∧ (restoreTok (m.tok ent)).str = (m.tok ent).str := by
        unfold restoreTok
        split_ifs <;> exact ⟨rfl, rfl⟩
      refine ih ?_ hpre hm
      refine (h.setTok hent ?_ ?_).setNext hent hpre
      · rw [hshape.1]
        exact (h.tame ent hent).1
      · rw [hshape.2]
        exact (h.tame ent hent).2

theorem restoreExp (hm : Mach.restoreExp fuel m = some m') : Keeps T S b m' :=
  (h.setFirst h.save).restoreWalk hT h.save hm

end

/-! Calculating. -/

variable {x : Ext F} {tk1 tk2 : ℕ} {o : Option ℕ} {ans : F}

section
variable (h : Keeps T S b m)
include h

theorem tokval (ht : t ∈ T) : Keeps T S b (m.tokval x t).2 :=
  h.setShape ht (Tok.shape_resolve _ _ _)

theorem result (h1 : tk1 ∈ T) (ho : PtrIn T o) : Keeps T S b (Mach.result m tk1 o ans) := by
  have htk : o.getD tk1 ∈ T := by
    cases o with
    | none => exact h1
    | some tk2 => simpa using ho
  exact ((h.setShape htk (Tok.shape_settokval _ _)).pushCalc htk).report _ _ _ _

theorem leftVal (ho : PtrIn T o) : Keeps T S b (m.leftVal x o).2 := by
  cases o with
  | none => exact h
  | some tk2 => exact h.tokval (by simpa using ho)

theorem logicOp {id : TokId} {val2 : F} (h1 : tk1 ∈ T) (ho : PtrIn T o) :
    Keeps T S b (Mach.logicOp x m id tk1 o val2) := by
  have hread := h.tokval (x := x) h1
  unfold Mach.logicOp
  split
  · exact hread.result h1 ho
  · split
    · split_ifs
      · exact hread.result h1 ho
      · exact h.result h1 ho
    · split_ifs
      · exact h.result h1 ho
      · exact hread.result h1 ho
    · exact h.result h1 ho

theorem calcLogic : Keeps T S b (Mach.calcLogic x m t).2 := by
  have hpop := h.poptok
  unfold Mach.calcLogic
  split
  next m1 hm1 =>
    rw [hm1] at hpop
    exact hpop.1
  next tk1 m1 hm1 =>
    rw [hm1] at hpop
    have h1 : tk1 ∈ T := by simpa using hpop.2
    split_ifs
    · exact (hpop.1.tokval h1).result h1 ptrIn_none
    · have hpop2 := hpop.1.poptok
      exact (hpop2.1.leftVal hpop2.2).logicOp h1 hpop2.2

end

omit [Fnum F] in
theorem storeEq (h : Keeps T S b m) : Keeps T S b (Mach.storeEq x m o ans) := by
  unfold Mach.storeEq
  split
  · dsimp only
    split_ifs
    · split
      all_goals exact h.report _ _ _ _
    all_goals exact h.report _ _ _ _
  · split
    · exact h.report _ _ _ _
    · exact h

theorem index (h : Keeps T S b m) (h1 : tk1 ∈ T) (h2 : tk2 ∈ T) : Keeps T S b (Mach.index x m tk1 tk2) := by
  have harray : Keeps T S b { m with tok := update m.tok tk2 { m.tok tk2 with id := .array } } :=
    h.setTok h2 (by simp) (h.tame tk2 h2).2
  have hread := harray.tokval (x := x) h1
  refine (hread.setTok h2 ?_ ?_).result h1 (by simpa using h2)
  · split_ifs <;> exact (hread.tame tk2 h2).1
  · split_ifs <;> exact (hread.tame tk2 h2).2

end Keeps
end Mach

/-- The parts that are taken as they come only work on the tokens they can reach. -/
structure Ext.Local {F : Type} (x : Ext F) : Prop where
  define : ∀ {T S b m tk1 tk2 r}, Mach.Keeps T S b m → tk1 ∈ T → tk2 ∈ T →
    x.define m tk1 tk2 = some r → Mach.Keeps T S b r.2
  mathFn : ∀ {T S b m t r}, Mach.Keeps T S b m → t ∈ T → x.mathFn m t = some r → Mach.Keeps T S b r.2
  fn : ∀ {T S b m t r}, Mach.Keeps T S b m → t ∈ T → x.fn m t = some r → Mach.Keeps T S b r.2
  cmd : ∀ {T S b m t r}, Mach.Keeps T S b m → t ∈ T → x.cmd m t = some r → Mach.Keeps T S b r.2

theorem Ext.local_nothing {F : Type} [Fnum F] : (Ext.nothing (F := F)).Local where
  define _ _ _ h := by cases h
  mathFn _ _ h := by cases h
  fn _ _ h := by cases h
  cmd _ _ h := by cases h

namespace Mach.Keeps
variable {F : Type} [Fnum F] {T : Set ℕ} {S : Set (List Char)} {b m : Mach F} {x : Ext F}
  {tk1 tk2 t : ℕ} {o : Option ℕ} {r : Bool × Mach F}

section
variable (hx : x.Local) (h : Keeps T S b m)
include hx h

theorem assign (h1 : tk1 ∈ T) (h2 : tk2 ∈ T) (hm : Mach.assign x m tk1 tk2 = some r) : Keeps T S b r.2 := by
  have hread := (h.tokval (x := x) h1).report
  unfold Mach.assign at hm
  dsimp only at hm
  split at hm
  next m1 hm1 =>
    have h₁ : Keeps T S b m1 := by
      split at hm1
      · split_ifs at hm1
        · exact hx.define h h1 h2 hm1
        · cases hm1
          exact hread _ _ _ _
      · exact hx.define h h1 h2 hm1
    cases hm
    exact (h₁.report _ _ _ _).result h1 (by simpa using h2)
  · split at hm
    · split_ifs at hm
      · exact hx.define h h1 h2 hm
      · cases hm
        exact hread _ _ _ _
    · exact hx.define h h1 h2 hm

theorem basicOp {id : TokId} {val2 : F} (h1 : tk1 ∈ T)
    (ho : PtrIn T o) (hm : Mach.basicOp x m id tk1 o val2 = some r) : Keeps T S b r.2 := by
  have hread := h.tokval (x := x) h1
  unfold Mach.basicOp at hm
  split at hm
  · cases hm
    exact hread.result h1 ho
  · split at hm
    · exact some.inj hm ▸ h
    · exact h.assign hx h1 (by simpa using ho) hm
    · exact some.inj hm ▸ h
    · cases hm
      exact h.index h1 (by simpa using ho)
    · cases hm
      exact ((hread.storeEq.tokval h1).storeEq).result h1 ho
    · cases hm
      exact hread.storeEq.result h1 ho
    · cases hm
      exact hread.result h1 ptrIn_none
    · cases hm
      exact hread.result h1 ptrIn_none
    · cases hm
      exact ((h.tokval (by simpa using ho)).tokval h1).result h1 ho
    · cases hm
      exact ((h.tokval (by simpa using ho)).tokval h1).result h1 ho
    · exact some.inj hm ▸ h

theorem calcBasic (hm : Mach.calcBasic x m t = some r) : Keeps T S b r.2 := by
  have hpop := h.poptok
  unfold Mach.calcBasic at hm
  split at hm
  next m1 hm1 =>
    rw [hm1] at hpop
    exact some.inj hm ▸ hpop.1
  next tk1 m1 hm1 =>
    rw [hm1] at hpop
    have hpop2 := hpop.1.poptok
    exact (hpop2.1.leftVal hpop2.2).basicOp hx (by simpa using hpop.2) hpop2.2 hm

end

omit [Fnum F] in
theorem printed {msg : Msg} (h : Keeps T S b r.2) : Keeps T S b (Mach.printed msg r).2 := by
  unfold Mach.printed
  split_ifs
  · exact h
  · exact h.report _ _ _ _

theorem calcTok (hx : x.Local) (h : Keeps T S b m) (ht : t ∈ T)
    (hm : Mach.calcTok x m t = some r) : Keeps T S b r.2 := by
  unfold Mach.calcTok at hm
  split at hm
  · obtain ⟨r', hr', rfl⟩ := map_eq_some_iff.1 hm
    exact (h.calcBasic hx hr').printed
  · obtain ⟨r', hr', rfl⟩ := map_eq_some_iff.1 hm
    exact (hx.mathFn h ht hr').printed
  · cases hm
    exact h.calcLogic.printed
  · cases hm
    exact (h.report _ _ _ _).pushCalc ht
  · cases hm
    split_ifs
    · exact h
    · exact h.pushCalc ht
  · cases hm
    exact h.pushCalc ht

end Mach.Keeps
end Prj.Ddlus
