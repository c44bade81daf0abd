import Prj.Ddlus.Calc

/-! Calculating values on a list instead of a linked stack. The links are forgotten and the tokens
keep every field, so that it is the same calculation. -/
namespace Prj.Ddlus
open Prj.Base Function List

def TokId.IsOp : TokId → Bool
  | plus | minus | mult | div | pow | mod | and | or | plusPlus | minusMinus
  | lt | gt | eq | ne | le | ge | andAnd | orOr | not => true
  | _ => false

def TokId.IsOperand : TokId → Bool
  | int | real | science | date | var => true
  | _ => false

def TokId.Counts (id : TokId) : Bool := id.IsOp || id.type = .number

theorem TokId.type_of_isOp {id : TokId} (h : id.IsOp = true) : id.type = .mathBasic ∨ id.type = .mathLogic := by
  revert h
  cases id <;> simp [TokId.IsOp, TokId.type]

theorem TokId.type_of_value {id : TokId} (h : id.IsOperand = true ∨ id.IsOp = true) :
    id.type ≠ .func ∧ id.type ≠ .command ∧ id.type ≠ .block := by
  revert h
  cases id <;> simp [TokId.IsOperand, TokId.IsOp, TokId.type]

section
variable {F : Type} [Fnum F] {op : TokId}

def binOp (id : TokId) (v2 v : F) : F :=
  match arith id, compare id, id with
  | some f, _, _ => f v2 v
  | none, some cmp, _ => ofBool (cmp v2 v)
  | none, none, .andAnd => ofBool (truth v2 && truth v)
  | none, none, .orOr => ofBool (truth v2 || truth v)
  | none, none, _ => Fnum.add v2 v

/-- The value of an operator that finds one operand; `ans` is the last answer. -/
def unOp (id : TokId) (ans v : F) : F :=
  match id with
  | .not => ofBool (!truth v)
  | .plusPlus => Fnum.add v Fnum.one
  | .minusMinus => Fnum.sub v Fnum.one
  | id => binOp id ans v

def opVal (id : TokId) (tk2 : Option ℕ) (v2 v : F) : F :=
  if tk2.isSome then binOp id v2 v else unOp id v2 v

theorem opVal_of_arith {id : TokId} {f : F → F → F} (h : arith id = some f) (tk2 : Option ℕ)
    (v2 v : F) : opVal id tk2 v2 v = f v2 v := by
  have hbin : binOp id v2 v = f v2 v := by simp [binOp, h]
  have hun : unOp id v2 v = binOp id v2 v := by
    unfold unOp
    split <;> simp_all [arith]
  simp [opVal, hun, hbin]

theorem opVal_of_compare {id : TokId} {cmp : F → F → Bool} (h : compare id = some cmp)
    (tk2 : Option ℕ) (v2 v : F) : opVal id tk2 v2 v = ofBool (cmp v2 v) := by
  have harith : arith (F := F) id = none := by
    revert h
    cases id <;> simp [arith, compare]
  have hbin : binOp id v2 v = ofBool (cmp v2 v) := by simp [binOp, harith, h]
  have hun : unOp id v2 v = binOp id v2 v := by
    unfold unOp
    split <;> simp_all [compare]
  simp [opVal, hun, hbin]

theorem opVal_andAnd (tk2 : Option ℕ) (v2 v : F) : opVal .andAnd tk2 v2 v = ofBool (truth v2 && truth v) := by
  cases tk2 <;> rfl

theorem opVal_orOr (tk2 : Option ℕ) (v2 v : F) : opVal .orOr tk2 v2 v = ofBool (truth v2 || truth v) := by
  cases tk2 <;> rfl

def readsRight (id : TokId) (v2 : F) : Bool :=
  match id with
  | .andAnd => truth v2
  | .orOr => !truth v2
  | _ => true

theorem binOp_of_not_readsRight {v2 : F} (h : readsRight op v2 = false) (v v' : F) :
    binOp op v2 v = binOp op v2 v' := by
  revert h
  unfold readsRight
  split <;> intro h
  · simp [binOp, arith, compare, h]
  · simp only [Bool.not_eq_false'] at h
    simp [binOp, arith, compare, h]
  · cases h

theorem unOp_of_not_readsRight {ans : F} (h : readsRight op ans = false) (v v' : F) :
    unOp op ans v = unOp op ans v' := by
  have hbin := binOp_of_not_readsRight h v v'
  unfold unOp
  split <;> simp_all [readsRight]

end

structure Reg (F : Type) where
  tok : ℕ → Tok F
  stk : List ℕ
  ncalc : ℤ

namespace Reg
variable {F : Type} [Fnum F] (x : Ext F) (vars : List (Var F))

def resolved (tok : ℕ → Tok F) (t : ℕ) : Tok F := (tok t).resolve (x.arrayVal vars) vars

def value (tok : ℕ → Tok F) (t : ℕ) : F := (resolved x vars tok t).signed

theorem value_update {tok : ℕ → Tok F} {t t' : ℕ} {k : Tok F} (h : t ≠ t') :
    value x vars (update tok t' k) t = value x vars tok t := by
  rw [value, resolved, update_of_ne h]
  rfl

/-- The right operand `t`, if it is evaluated. -/
def look (id : TokId) (v2 : F) (tok : ℕ → Tok F) (t : ℕ) : ℕ → Tok F :=
  if readsRight id v2 then update tok t (resolved x vars tok t) else tok

def store (r : Reg F) (t : ℕ) (ans : F) : Reg F :=
  ⟨update r.tok t ((r.tok t).settokval ans), t :: r.stk, r.ncalc + 1⟩

def step1 (r : Reg F) (id : TokId) (t1 : ℕ) (stk : List ℕ) : Reg F :=
  let ans := varVal vars ansVarName
  store ⟨look x vars id ans r.tok t1, stk, r.ncalc⟩ t1 (unOp id ans (value x vars r.tok t1))

def step2 (r : Reg F) (id : TokId) (t1 t2 : ℕ) (stk : List ℕ) : Reg F :=
  let v2 := value x vars r.tok t2
  let tok := update r.tok t2 (resolved x vars r.tok t2)
  store ⟨look x vars id v2 tok t1, stk, r.ncalc⟩ t2 (binOp id v2 (value x vars r.tok t1))

def step (r : Reg F) (ent : ℕ) : Option (Reg F) :=
  let t := r.tok ent
  if t.id.IsOp then
    match r.stk with
    | [] => none
    | [t1] => some (step1 x vars r t.id t1 [])
    | t1 :: t2 :: stk =>
      if t.id = .not then some (step1 x vars r t.id t1 (t2 :: stk))
      else some (step2 x vars r t.id t1 t2 stk)
  else some { r with stk := ent :: r.stk, ncalc := r.ncalc + if t.type = .number then 1 else 0 }

def run (r : Reg F) (xs : List ℕ) : Option (Reg F) := xs.foldlM (step x vars) r

variable {x vars} {r : Reg F} {ent t1 t2 : ℕ}

theorem run_cons (r : Reg F) (ent : ℕ) (xs : List ℕ) :
    r.run x vars (ent :: xs) = (r.step x vars ent).bind (run x vars · xs) :=
  foldlM_cons

theorem step_cases {r' : Reg F} (h : r.step x vars ent = some r') : ((r.tok ent).id.IsOp = false ∧ r' = { r with
      stk := ent :: r.stk, ncalc := r.ncalc + if (r.tok ent).type = .number then 1 else 0 }) ∨
    (∃ t1 stk, (r.tok ent).id.IsOp = true ∧ r.stk = t1 :: stk ∧
      ((r.tok ent).id ≠ .not → stk = []) ∧ r' = step1 x vars r (r.tok ent).id t1 stk) ∨
    ∃ t1 t2 stk, (r.tok ent).id.IsOp = true ∧ r.stk = t1 :: t2 :: stk ∧ (r.tok ent).id ≠ .not ∧
      r' = step2 x vars r (r.tok ent).id t1 t2 stk := by
  simp only [step] at h
  cases hop : (r.tok ent).id.IsOp with
  | false => exact .inl ⟨rfl, by simpa [hop] using h.symm⟩
  | true =>
    rw [if_pos hop] at h
    refine .inr ?_
    match hstk : r.stk with
    | [] => simp [hstk] at h
    | [t1] =>
      rw [hstk] at h
      exact .inl ⟨t1, [], rfl, rfl, fun _ => rfl, (Option.some.inj h).symm⟩
    | t1 :: t2 :: stk =>
      rw [hstk] at h
      by_cases hnot : (r.tok ent).id = .not
      · exact .inl ⟨t1, t2 :: stk, rfl, rfl, absurd hnot, by simpa [hnot] using h.symm⟩
      · exact .inr ⟨t1, t2, stk, rfl, rfl, hnot, by simpa [hnot] using h.symm⟩

theorem step_eq_step1 {stk : List ℕ} (hop : (r.tok ent).id.IsOp = true)
    (hs : r.stk = t1 :: stk) (hnot : (r.tok ent).id ≠ .not → stk = []) :
    r.step x vars ent = some (step1 x vars r (r.tok ent).id t1 stk) := by
  cases stk with
  | nil => simp [step, hop, hs]
  | cons t2 stk =>
    have hid : (r.tok ent).id = .not := not_not.1 fun h => by simpa using hnot h
    simp [step, hs, hid, TokId.IsOp]

theorem step_eq_step2 {stk : List ℕ}
    (hop : (r.tok ent).id.IsOp = true) (hs : r.stk = t1 :: t2 :: stk) (hnot : (r.tok ent).id ≠ .not) :
    r.step x vars ent = some (step2 x vars r (r.tok ent).id t1 t2 stk) := by
  simp [step, hop, hs, hnot]

end Reg

/-! The linked stack does the same. -/

namespace Mach
variable {F : Type} {x : Ext F} {vars : List (Var F)} {m : Mach F} {r : Reg F} {rest : List ℕ} {t : ℕ}

/-- The session holds `r`, and `rest` is still to come. -/
structure Holds (vars : List (Var F)) (m : Mach F) (r : Reg F) (rest : List ℕ) : Prop where
  tok_eq : m.tok = r.tok
  ncalc_eq : m.ncalc = r.ncalc
  vars_eq : m.vars = vars
  todo : Chain m.next m.prefixfirst rest
  stack : Chain m.next m.stacktop r.stk
  nodup : (r.stk ++ rest).Nodup

def Works (m m' : Mach F) : Prop :=
  ∃ tok next top n, m' = { m with tok, next, stacktop := top, ncalc := n }

theorem Works.trans {a b c : Mach F} (hab : Works a b) (hbc : Works b c) : Works a c := by
  obtain ⟨_, _, _, _, rfl⟩ := hab
  obtain ⟨_, _, _, _, rfl⟩ := hbc
  exact ⟨_, _, _, _, rfl⟩

theorem poptok_spec {stk : List ℕ} (h : Holds vars m r rest) (hs : r.stk = t :: stk) (hid : (r.tok t).id ≠ .brOpen) :
    ∃ m', poptok m = (some t, m') ∧ Holds vars m' { r with stk } rest ∧ Works m m' := by
  have hstack := h.stack
  have hn := h.nodup
  rw [hs] at hstack hn
  have ht : t ∉ stk ++ rest := (nodup_cons.1 hn).1
  refine ⟨{ m with stacktop := m.next t, next := update m.next t none }, ?_, ?_, ⟨_, _, _, _, rfl⟩⟩
  · simp [poptok, hstack.1, h.tok_eq, hid]
  · exact ⟨h.tok_eq, h.ncalc_eq, h.vars_eq, h.todo.update fun hin => ht (by simp [hin]),
      hstack.2.update fun hin => ht (by simp [hin]), (nodup_cons.1 hn).2⟩

theorem poptok_nil (h : Holds vars m r rest) (hs : r.stk = []) : poptok m = (none, m) := by
  have hstack := h.stack
  rw [hs] at hstack
  simp only [poptok, show m.stacktop = none from hstack]

variable [Fnum F]

theorem Holds.resolved_eq (h : Holds vars m r rest) (t : ℕ) : m.resolved x t = Reg.resolved x vars r.tok t := by
  rw [resolved, Reg.resolved, h.tok_eq, h.vars_eq]

theorem tokval_spec (h : Holds vars m r rest) (t : ℕ) :
    ∃ m', m.tokval x t = (Reg.value x vars r.tok t, m') ∧ Works m m' ∧
      Holds vars m' { r with tok := update r.tok t (Reg.resolved x vars r.tok t) } rest := by
  refine ⟨{ m with tok := update m.tok t (m.resolved x t) }, ?_, ⟨_, _, _, _, rfl⟩, ?_⟩
  · rw [tokval, read, h.resolved_eq]
    rfl
  · exact { h with tok_eq := by rw [h.tok_eq, h.resolved_eq] }

theorem result_spec {tk2 : Option ℕ} (tk1 : ℕ) (ans : F) (h : Holds vars m r rest)
    (ht : tk2.getD tk1 ∉ r.stk ++ rest) : Holds vars (result m tk1 tk2 ans) (r.store (tk2.getD tk1) ans) rest ∧
      Works m (result m tk1 tk2 ans) := by
  refine ⟨⟨?_, ?_, h.vars_eq, ?_, ?_, nodup_cons.2 ⟨ht, h.nodup⟩⟩, ⟨_, _, _, _, rfl⟩⟩
  · simp [result, pushCalc, Reg.store, h.tok_eq]
  · simp [result, pushCalc, Reg.store, h.ncalc_eq]
  · exact h.todo.update fun hin => ht (by simp [hin])
  · exact h.stack.push fun hin => ht (by simp [hin])

theorem tokval_of_res (h : (m.tok t).res = true) : m.tokval x t = ((m.tok t).signed, m) := by
  have hres : m.resolved x t = m.tok t := Tok.resolve_of_res h
  rw [tokval, read, hres, update_eq_self]

section
variable {ent t1 t2 : ℕ} {stk : List ℕ}

theorem pop2_spec (h : Holds vars m r rest) (hs : r.stk = t1 :: t2 :: stk) (hbr : ∀ t ∈ r.stk, (r.tok t).id ≠ .brOpen) :
    ∃ m1 m2 m3, poptok m = (some t1, m1) ∧ poptok m1 = (some t2, m2) ∧
      m2.leftVal x (some t2) = (Reg.value x vars r.tok t2, m3) ∧ Works m m3 ∧ m1.tok = m.tok ∧
      Holds vars m3 ⟨update r.tok t2 (Reg.resolved x vars r.tok t2), stk, r.ncalc⟩ rest := by
  obtain ⟨m1, hm1, h1, hw1⟩ := poptok_spec h hs (hbr t1 (by simp [hs]))
  obtain ⟨m2, hm2, h2, hw2⟩ := poptok_spec (r := ⟨r.tok, t2 :: stk, r.ncalc⟩) h1 rfl (hbr t2 (by simp [hs]))
  obtain ⟨m3, hm3, hw3, h3⟩ := tokval_spec (x := x) h2 t2
  exact ⟨m1, m2, m3, hm1, hm2, hm3, hw1.trans (hw2.trans hw3), by rw [h1.tok_eq, h.tok_eq], h3⟩

variable {id : TokId} {tk2 : Option ℕ} {v2 : F}

theorem basicOp_spec (v2 : F) (h : Holds vars m r rest) (hop : id.IsOp = true)
    (hty : id.type = .mathBasic) (hin : tk2.getD t1 ∉ r.stk ++ rest)
    (hres : ∀ t2, tk2 = some t2 → t2 ≠ t1 ∧ (r.tok t2).res = true ∧ (r.tok t2).signed = v2) :
    ∃ m', basicOp x m id t1 tk2 v2 = some (true, m') ∧ Works m m' ∧
      Holds vars m' (Reg.store { r with tok := Reg.look x vars id v2 r.tok t1 } (tk2.getD t1)
        (opVal id tk2 v2 (Reg.value x vars r.tok t1))) rest := by
  have hlook : Reg.look x vars id v2 r.tok t1 = update r.tok t1 (Reg.resolved x vars r.tok t1) := by
    rw [Reg.look]
    revert hop hty
    cases id <;> simp [TokId.IsOp, TokId.type, readsRight]
  obtain ⟨m1, hm1, hw1, h1⟩ := tokval_spec (x := x) h t1
  have hdone := fun ans => result_spec t1 ans h1 hin
  rw [hlook]
  cases hf : arith (F := F) id with
  | some f =>
    refine ⟨_, ?_, hw1.trans (hdone _).2, (hdone _).1⟩
    simp only [basicOp, hf, hm1, opVal_of_arith hf]
  | none =>
    obtain rfl | rfl : id = .plusPlus ∨ id = .minusMinus := by
      revert hop hty hf
      cases id <;> simp [TokId.IsOp, TokId.type, arith]
    all_goals
      cases tk2 with
      | none =>
        refine ⟨_, ?_, hw1.trans (hdone _).2, (hdone _).1⟩
        simp [basicOp, arith, hm1, opVal, unOp]
      | some t2 =>
        obtain ⟨-, hr2, hv2⟩ := hres t2 rfl
        rw [← h.tok_eq] at hr2 hv2
        refine ⟨_, ?_, hw1.trans (hdone _).2, (hdone _).1⟩
        simp [basicOp, arith, tokval_of_res hr2, hv2, hm1, opVal, binOp, compare]

theorem logicOp_spec (x : Ext F) (v2 : F) (h : Holds vars m r rest) (hop : id.IsOp = true) (hnot : id ≠ .not)
    (hty : id.type = .mathLogic) (hin : tk2.getD t1 ∉ r.stk ++ rest) :
    Works m (logicOp x m id t1 tk2 v2) ∧ Holds vars (logicOp x m id t1 tk2 v2)
        (Reg.store { r with tok := Reg.look x vars id v2 r.tok t1 } (tk2.getD t1)
          (opVal id tk2 v2 (Reg.value x vars r.tok t1))) rest := by
  obtain ⟨m1, hm1, hw1, h1⟩ := tokval_spec (x := x) h t1
  have hdone := fun ans => result_spec t1 ans h1 hin
  have hskip := fun ans => result_spec t1 ans h hin
  cases hc : compare (F := F) id with
  | some cmp =>
    have hlook : Reg.look x vars id v2 r.tok t1 = update r.tok t1 (Reg.resolved x vars r.tok t1) := by
      rw [Reg.look]
      revert hc
      cases id <;> simp [compare, readsRight]
    simp only [logicOp, hc, hm1, hlook, opVal_of_compare hc]
    exact ⟨hw1.trans (hdone _).2, (hdone _).1⟩
  | none =>
    obtain rfl | rfl : id = .andAnd ∨ id = .orOr := by
      revert hop hnot hty hc
      cases id <;> simp [TokId.IsOp, TokId.type, compare]
    all_goals
      cases hv : truth v2
      all_goals simp only [logicOp, hc, hv, hm1, opVal_andAnd, opVal_orOr, Reg.look, readsRight]
      all_goals first
        | exact ⟨hw1.trans (hdone _).2, (hdone _).1⟩
        | exact ⟨(hskip _).2, (hskip _).1⟩

section
variable (h : Holds vars m r rest)
include h

theorem calcTok_spec2 (hs : r.stk = t1 :: t2 :: stk)
    (ht : (r.tok ent).FromTable) (hop : (r.tok ent).id.IsOp = true) (hnot : (r.tok ent).id ≠ .not)
    (hbr : ∀ t ∈ r.stk, (r.tok t).id ≠ .brOpen) : ∃ m', calcTok x m ent = some (true, m') ∧ Works m m' ∧
      Holds vars m' (r.step2 x vars (r.tok ent).id t1 t2 stk) rest := by
  obtain ⟨m1, m2, m3, hm1, hm2, hm3, hw, htok1, h3⟩ := pop2_spec (x := x) h hs hbr
  have hn := h.nodup
  have ht21 : t2 ≠ t1 := by grind
  have hin : (some t2).getD t1 ∉ stk ++ rest := by grind
  have hid : (m3.tok ent).id = (r.tok ent).id := by
    rw [h3.tok_eq]
    exact Tok.id_eq_of_shape (Tok.shape_update (Tok.shape_resolve _ _ _) ent)
  rcases TokId.type_of_isOp hop with hty | hty
  · obtain ⟨m4, hm4, hw4, h4⟩ := basicOp_spec (x := x) (Reg.value x vars r.tok t2) h3 hop hty hin (by
        rintro _ ⟨⟩
        exact ⟨ht21, by simp [Reg.resolved], by simp [Reg.value]⟩)
    refine ⟨m4, ?_, hw.trans hw4, ?_⟩
    · simp [calcTok, h.tok_eq, ht.1, hty, calcBasic, hm1, hm2, hm3, hid, hm4, printed]
    · simpa [Reg.value_update x vars ht21.symm, opVal, Reg.step2] using h4
  · obtain ⟨hw4, h4⟩ := logicOp_spec x (Reg.value x vars r.tok t2) h3 hop hnot hty hin
    refine ⟨_, ?_, hw.trans hw4, by simpa [Reg.value_update x vars ht21.symm, opVal, Reg.step2] using h4⟩
    simp [calcTok, h.tok_eq, ht.1, hty, calcLogic, hm1, htok1, hnot, hm2, hm3, hid, printed]

theorem calcTok_spec1 (hs : r.stk = t1 :: stk) (ht : (r.tok ent).FromTable) (hop : (r.tok ent).id.IsOp = true)
    (hnot : (r.tok ent).id ≠ .not → stk = []) (hbr : ∀ t ∈ r.stk, (r.tok t).id ≠ .brOpen) :
    ∃ m', calcTok x m ent = some (true, m') ∧ Works m m' ∧
      Holds vars m' (r.step1 x vars (r.tok ent).id t1 stk) rest := by
  obtain ⟨m1, hm1, h1, hw1⟩ := poptok_spec h hs (hbr t1 (by simp [hs]))
  have hn := h.nodup
  rw [hs] at hn
  have hin : (none : Option ℕ).getD t1 ∉ stk ++ rest := (nodup_cons.1 hn).1
  have htok1 : m1.tok = r.tok := h1.tok_eq
  by_cases hid : (r.tok ent).id = .not
  · obtain ⟨m2, hm2, hw2, h2⟩ := tokval_spec (x := x) h1 t1
    obtain ⟨h3, hw3⟩ := result_spec t1 (ofBool (!truth (Reg.value x vars r.tok t1))) h2 hin
    refine ⟨_, ?_, hw1.trans (hw2.trans hw3), ?_⟩
    · simp [calcTok, h.tok_eq, ht.1, hid, TokId.type, calcLogic, hm1, htok1, hm2, printed]
    · simpa [Reg.step1, Reg.look, hid, readsRight, unOp] using h3
  · obtain rfl := hnot hid
    have hm2 := poptok_nil h1 rfl
    rcases TokId.type_of_isOp hop with hty | hty
    · obtain ⟨m3, hm3, hw3, h3⟩ := basicOp_spec (x := x) (varVal vars ansVarName) h1 hop hty hin (by simp)
      refine ⟨m3, ?_, hw1.trans hw3, by simpa [opVal, Reg.step1] using h3⟩
      simp [calcTok, h.tok_eq, ht.1, hty, calcBasic, hm1, hm2, leftVal, htok1, h1.vars_eq, hm3, printed]
    · obtain ⟨hw3, h3⟩ := logicOp_spec x (varVal vars ansVarName) h1 hop hid hty hin
      refine ⟨_, ?_, hw1.trans hw3, by simpa [opVal, Reg.step1] using h3⟩
      simp [calcTok, h.tok_eq, ht.1, hty, calcLogic, hm1, hm2, leftVal, htok1, h1.vars_eq, hid, printed]

theorem calcTok_operand (ht : (r.tok ent).FromTable)
    (hop : (r.tok ent).id.IsOperand = true) (hent : ent ∉ r.stk ++ rest) :
    ∃ m', calcTok x m ent = some (true, m') ∧ Works m m' ∧ Holds vars m' { r with
        stk := ent :: r.stk, ncalc := r.ncalc + if (r.tok ent).type = .number then 1 else 0 }
        rest := by
  have hnext : ∀ n : ℤ, Holds vars (pushCalc { m with ncalc := n } ent)
      { r with stk := ent :: r.stk, ncalc := n } rest := fun n =>
    ⟨h.tok_eq, rfl, h.vars_eq, h.todo.update fun hin => hent (by simp [hin]),
      h.stack.push fun hin => hent (by simp [hin]), nodup_cons.2 ⟨hent, h.nodup⟩⟩
  have hty : (r.tok ent).id.type = .number ∨ (r.tok ent).id.type = .string := by
    revert hop
    cases (r.tok ent).id <;> simp [TokId.IsOperand, TokId.type]
  rcases hty with hty | hty
  · refine ⟨pushCalc { m with ncalc := m.ncalc + 1 } ent, ?_, ⟨_, _, _, _, rfl⟩, ?_⟩
    · simp [calcTok, h.tok_eq, ht.1, hty]
    · simpa [ht.1, hty, h.ncalc_eq] using hnext (r.ncalc + 1)
  · refine ⟨pushCalc m ent, ?_, ⟨_, _, _, _, rfl⟩, ?_⟩
    · simp [calcTok, h.tok_eq, ht.1, hty]
    · simpa [ht.1, hty, ← h.ncalc_eq] using hnext m.ncalc

/-- One token of a value expression does the same to the linked stack as to the list. -/
theorem calcTok_spec {r' : Reg F} (ht : (r.tok ent).FromTable)
    (hv : (r.tok ent).id.IsOperand = true ∨ (r.tok ent).id.IsOp = true) (hent : ent ∉ r.stk ++ rest)
    (hbr : ∀ t ∈ r.stk, (r.tok t).id ≠ .brOpen) (hs : r.step x vars ent = some r') :
    ∃ m', calcTok x m ent = some (true, m') ∧ Works m m' ∧ Holds vars m' r' rest := by
  obtain ⟨hop, rfl⟩ | ⟨t1, stk, hop, hstk, hnot, rfl⟩ | ⟨t1, t2, stk, hop, hstk, hnot, rfl⟩ :=
    Reg.step_cases hs
  · exact calcTok_operand h ht (hv.resolve_right (by simp [hop])) hent
  · exact calcTok_spec1 h hstk ht hop hnot hbr
  · exact calcTok_spec2 h hstk ht hop hnot hbr

end
end
end Mach
end Prj.Ddlus
