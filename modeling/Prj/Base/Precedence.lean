import Mathlib.Data.List.Basic

/-! Infix expressions with operator precedence, and the two-stack algorithm that turns them into
postfix order. A smaller number binds tighter; equal numbers associate to the left. -/
namespace Prj.Base
open List Option

inductive Kind
  | operand
  | oper
  | opn
  | cls
  deriving DecidableEq

inductive Expr (α : Type*)
  | leaf (a : α)
  | paren (o : α) (e : Expr α) (c : α)
  | bin (l : Expr α) (op : α) (r : Expr α)

namespace Expr
variable {α V : Type*} {o : α}

def toks : Expr α → List α
  | leaf a => [a]
  | paren o e c => o :: (e.toks ++ [c])
  | bin l op r => l.toks ++ op :: r.toks

def post : Expr α → List α
  | leaf a => [a]
  | paren _ e _ => e.post
  | bin l op r => l.post ++ (r.post ++ [op])

/-- The operator applied last, unless the expression is an operand or in brackets. -/
def top : Expr α → Option α
  | bin _ op _ => some op
  | _ => none

def eval (val : α → V) (apply : α → V → V → V) : Expr α → V
  | leaf a => val a
  | paren _ e _ => e.eval val apply
  | bin l op r => apply op (l.eval val apply) (r.eval val apply)

def Shaped (kind : α → Kind) : Expr α → Prop
  | leaf a => kind a = .operand
  | paren o e c => kind o = .opn ∧ e.Shaped kind ∧ kind c = .cls
  | bin l op r => l.Shaped kind ∧ kind op = .oper ∧ r.Shaped kind

def Respects (pred : α → ℕ) : Expr α → Prop
  | leaf _ => True
  | paren _ e _ => e.Respects pred
  | bin l op r => l.Respects pred ∧ r.Respects pred ∧
      (∀ o, l.top = some o → pred o ≤ pred op) ∧ ∀ o, r.top = some o → pred o < pred op

theorem length_post_le (e : Expr α) : e.post.length ≤ e.toks.length := by
  induction e with
  | leaf _ => exact Nat.le_refl _
  | paren _ _ _ ih =>
    simp only [post, toks, length_cons, length_append]
    omega
  | bin _ _ _ ihl ihr =>
    simp only [post, toks, length_cons, length_append, length_nil]
    omega

theorem mem_toks_of_mem_post {e : Expr α} {a : α} (h : a ∈ e.post) : a ∈ e.toks := by
  induction e with
  | leaf _ => exact h
  | paren _ _ _ ih => simp [toks, ih h]
  | bin l op r ihl ihr =>
    simp only [post, mem_append, mem_singleton] at h
    simp only [toks, mem_append, mem_cons]
    exact h.imp ihl fun h => h.symm.imp id ihr

theorem kind_of_mem_post {kind : α → Kind} {e : Expr α} {a : α} (h : e.Shaped kind)
    (ha : a ∈ e.post) : kind a ≠ .opn ∧ kind a ≠ .cls := by
  induction e with
  | leaf _ =>
    obtain rfl := mem_singleton.1 ha
    simp [show kind a = .operand from h]
  | paren _ _ _ ih => exact ih h.2.1 ha
  | bin l op r ihl ihr =>
    simp only [post, mem_append, mem_singleton] at ha
    rcases ha with ha | ha | rfl
    · exact ihl h.1 ha
    · exact ihr h.2.2 ha
    · simp [h.2.1]

theorem mem_toks_of_top {e : Expr α} (h : e.top = some o) : o ∈ e.toks := by
  cases e with
  | bin l op r =>
    cases h
    simp [toks]
  | _ => cases h

theorem Respects.congr {pred pred' : α → ℕ} {e : Expr α} (h : e.Respects pred)
    (heq : ∀ a ∈ e.toks, pred' a = pred a) : e.Respects pred' := by
  induction e with
  | leaf _ => trivial
  | paren _ _ _ ih => exact ih h fun a ha => heq a (by simp [toks, ha])
  | bin l op r ihl ihr =>
    have hop := heq op (by simp [toks])
    refine ⟨ihl h.1 fun a ha => heq a (by simp [toks, ha]),
      ihr h.2.1 fun a ha => heq a (by simp [toks, ha]), fun o ho => ?_, fun o ho => ?_⟩
    · rw [heq o (by simp [toks, mem_toks_of_top ho]), hop]
      exact h.2.2.1 o ho
    · rw [heq o (by simp [toks, mem_toks_of_top ho]), hop]
      exact h.2.2.2 o ho

/-! Every expression can be regrouped to follow the numbers. -/

/-- Attach one more operator with an operand or bracket on its right. -/
def graft (pred : α → ℕ) (op : α) (r : Expr α) : Expr α → Expr α
  | bin l₁ op₁ r₁ => if pred op < pred op₁ then bin l₁ op₁ (graft pred op r r₁)
      else bin (bin l₁ op₁ r₁) op r
  | l => bin l op r

/-- Attach the operators and operands of the third expression one by one. -/
def join (pred : α → ℕ) (l : Expr α) (op : α) : Expr α → Expr α
  | bin r₁ op₂ r₂ => join pred (join pred l op r₁) op₂ r₂
  | r => graft pred op r l

def regroup (pred : α → ℕ) : Expr α → Expr α
  | leaf a => leaf a
  | paren o e c => paren o (e.regroup pred) c
  | bin l op r => join pred (l.regroup pred) op (r.regroup pred)

section
variable {pred : α → ℕ} {op : α} {l r : Expr α}

theorem top_graft (h : (graft pred op r l).top = some o) : o = op ∨ l.top = some o ∧ pred op < pred o := by
  cases l with
  | bin l1 op1 r1 =>
    simp only [graft] at h
    split_ifs at h with hlt
    · cases h
      exact .inr ⟨rfl, hlt⟩
    · exact .inl (some.inj h).symm
  | _ => exact .inl (some.inj h).symm

theorem respects_graft (hl : l.Respects pred) (hr : r.Respects pred) (ht : r.top = none) :
    (graft pred op r l).Respects pred := by
  induction l with
  | bin l1 op1 r1 _ ih =>
    simp only [graft]
    split_ifs with hlt
    · refine ⟨hl.1, ih hl.2.1, hl.2.2.1, fun o ho => ?_⟩
      rcases top_graft ho with rfl | ⟨ho, -⟩
      · exact hlt
      · exact hl.2.2.2 o ho
    · refine ⟨hl, hr, fun o ho => ?_, by simp [ht]⟩
      cases ho
      omega
  | _ => exact ⟨hl, hr, by simp [top], by simp [ht]⟩

theorem respects_join (hl : l.Respects pred) (hr : r.Respects pred) : (join pred l op r).Respects pred := by
  induction r generalizing l op with
  | bin r1 op2 r2 ih1 ih2 => exact ih2 (ih1 hl hr.1) hr.2.1
  | _ => exact respects_graft hl hr rfl

theorem respects_regroup (e : Expr α) : (e.regroup pred).Respects pred := by
  induction e with
  | leaf _ => trivial
  | paren _ _ _ ih => exact ih
  | bin _ _ _ ihl ihr => exact respects_join ihl ihr

theorem toks_graft : (graft pred op r l).toks = l.toks ++ op :: r.toks := by
  induction l with
  | bin l1 op1 r1 _ ih =>
    simp only [graft]
    split_ifs
    · simp [toks, ih]
    · rfl
  | _ => rfl

theorem toks_join : (join pred l op r).toks = l.toks ++ op :: r.toks := by
  induction r generalizing l op with
  | bin r1 op2 r2 ih1 ih2 => simp [join, ih1, ih2, toks]
  | _ => exact toks_graft

theorem toks_regroup (e : Expr α) : (e.regroup pred).toks = e.toks := by
  induction e with
  | leaf _ => rfl
  | paren _ _ _ ih => simp [regroup, toks, ih]
  | bin _ _ _ ihl ihr => simp [regroup, toks_join, toks, ihl, ihr]

variable {kind : α → Kind}

section
variable (hl : l.Shaped kind) (ho : kind op = .oper) (hr : r.Shaped kind)
include hl ho hr

theorem shaped_graft : (graft pred op r l).Shaped kind := by
  induction l with
  | bin l1 op1 r1 _ ih =>
    simp only [graft]
    split_ifs
    · exact ⟨hl.1, hl.2.1, ih hl.2.2⟩
    · exact ⟨hl, ho, hr⟩
  | _ => exact ⟨hl, ho, hr⟩

theorem shaped_join : (join pred l op r).Shaped kind := by
  induction r generalizing l op with
  | bin r1 op2 r2 ih1 ih2 => exact ih2 (ih1 hl ho hr.1) hr.2.1 hr.2.2
  | _ => exact shaped_graft hl ho hr

end

theorem shaped_regroup {e : Expr α} (h : e.Shaped kind) : (e.regroup pred).Shaped kind := by
  induction e with
  | leaf _ => exact h
  | paren _ _ _ ih => exact ⟨h.1, ih h.2.1, h.2.2⟩
  | bin _ _ _ ihl ihr => exact shaped_join (ihl h.1) h.2.1 (ihr h.2.2)

end
end Expr

section Yard
variable {α : Type*} (kind : α → Kind) (pred : α → ℕ)

/-- An arriving operator `a` sends the operator `t` on the stack to the output. -/
def yields (a t : α) : Bool := kind t ≠ .opn && pred t ≤ pred a

def yardStep (st : List α × List α) (a : α) : Option (List α × List α) :=
  match kind a with
  | .operand => some (st.1 ++ [a], st.2)
  | .oper => some (st.1 ++ st.2.takeWhile (yields kind pred a),
      a :: st.2.dropWhile (yields kind pred a))
  | .opn => some (st.1, a :: st.2)
  | .cls =>
    match st.2.dropWhile (kind · ≠ .opn) with
    | [] => none
    | _ :: stk => some (st.1 ++ st.2.takeWhile (kind · ≠ .opn), stk)

def yard (st : List α × List α) (xs : List α) : Option (List α × List α) :=
  xs.foldlM (yardStep kind pred) st

variable {kind pred} {e : Expr α} {out stk : List α} {ys : List α} {st st' : List α × List α}

/-- Nothing on the stack yields to an operator of `e` outside brackets. -/
def Blocked (kind : α → Kind) (pred : α → ℕ) (e : Expr α) (stk : List α) : Prop :=
  ∀ t, stk.head? = some t → kind t = .opn ∨ ∀ o, e.top = some o → pred o < pred t

/-- What an expression leaves on the stack: operators that bind at least as tightly as its top. -/
def Pending (kind : α → Kind) (pred : α → ℕ) (e : Expr α) (ys : List α) : Prop :=
  ∀ y ∈ ys, kind y ≠ .opn ∧ ∃ o, e.top = some o ∧ pred y ≤ pred o

private theorem takeWhile_append_stop {p : α → Bool} (zs : List α)
    (hy : ∀ y ∈ ys, p y = true) (hz : ∀ z, zs.head? = some z → p z = false) :
    (ys ++ zs).takeWhile p = ys ∧ (ys ++ zs).dropWhile p = zs := by
  rw [List.takeWhile_append_of_pos hy, List.dropWhile_append_of_pos hy]
  cases zs with
  | nil => simp
  | cons z zs => simp [hz z rfl]

theorem yard_append (xs ys : List α) (st : List α × List α) :
    yard kind pred st (xs ++ ys) = (yard kind pred st xs).bind (yard kind pred · ys) :=
  foldlM_append

theorem yard_cons (x : α) (xs : List α) (st : List α × List α) :
    yard kind pred st (x :: xs) = (yardStep kind pred st x).bind (yard kind pred · xs) :=
  foldlM_cons

theorem mem_of_yardStep {a x : α}
    (h : yardStep kind pred st a = some st') (hx : x ∈ st'.1 ++ st'.2) : x ∈ st.1 ++ st.2 ∨ x = a := by
  unfold yardStep at h
  split at h
  · grind
  · have hsplit := takeWhile_append_dropWhile (p := yields kind pred a) (l := st.2)
    grind
  · grind
  · split at h
    · cases h
    · have hsplit := takeWhile_append_dropWhile (p := fun y => decide (kind y ≠ .opn)) (l := st.2)
      grind

theorem length_yardStep_le {a : α} (h : yardStep kind pred st a = some st') : st'.2.length ≤ st.2.length + 1 := by
  unfold yardStep at h
  split at h
  · cases h
    simp
  · cases h
    simpa using (dropWhile_suffix _).length_le
  · cases h
    simp
  · split at h
    · cases h
    next o stk hdrop =>
      cases h
      have hle : (st.2.dropWhile fun y => decide (kind y ≠ .opn)).length ≤ st.2.length :=
        (dropWhile_suffix _).length_le
      rw [hdrop] at hle
      exact Nat.le_trans (Nat.le_succ _) (Nat.le_trans hle (Nat.le_succ _))

theorem yardStep_close {o c : α} (hc : kind c = .cls) (ho : kind o = .opn)
    (hy : ∀ y ∈ ys, kind y ≠ .opn) : yardStep kind pred (out, ys ++ o :: stk) c = some (out ++ ys, stk) := by
  obtain ⟨htake, hdrop⟩ := takeWhile_append_stop (o :: stk) (p := fun y => decide (kind y ≠ .opn))
    (by simpa using hy) (by simp [ho])
  simp only [yardStep, hc, htake, hdrop]

theorem yardStep_oper {op : α} (hop : kind op = .oper) (hy : ∀ y ∈ ys, kind y ≠ .opn ∧ pred y ≤ pred op)
    (hs : ∀ t, stk.head? = some t → kind t = .opn ∨ pred op < pred t) :
    yardStep kind pred (out, ys ++ stk) op = some (out ++ ys, op :: stk) := by
  obtain ⟨htake, hdrop⟩ := takeWhile_append_stop stk (p := yields kind pred op)
    (by simpa [yields] using hy) (by simpa [yields, imp_iff_not_or] using hs)
  simp only [yardStep, hop, htake, hdrop]

/-- An expression goes to the output and the stack in postfix order, and the symbols below it stay
where they are. -/
theorem yard_expr (out : List α) (he : e.Shaped kind) (hr : e.Respects pred) (hb : Blocked kind pred e stk) :
    ∃ xs ys, yard kind pred (out, stk) e.toks = some (out ++ xs, ys ++ stk) ∧ xs ++ ys = e.post ∧
      Pending kind pred e ys := by
  induction e generalizing out stk with
  | leaf a =>
    refine ⟨[a], [], ?_, rfl, by simp [Pending]⟩
    simp [yard, Expr.toks, yardStep, show kind a = .operand from he]
  | paren o e c ih =>
    obtain ⟨ho, he, hc⟩ := he
    have hstep : yardStep kind pred (out, stk) o = some (out, o :: stk) := by simp [yardStep, ho]
    have hbo : Blocked kind pred e (o :: stk) := by
      rintro t ⟨⟩
      exact .inl ho
    obtain ⟨xs, ys, hrun, hpost, hys⟩ := ih out he hr hbo
    refine ⟨xs ++ ys, [], ?_, by simpa [Expr.post] using hpost, by simp [Pending]⟩
    rw [Expr.toks, yard_cons, hstep, bind_some, yard_append, hrun, bind_some,
      yard_cons, yardStep_close hc ho fun y hy => (hys y hy).1]
    simp [yard]
  | bin l op r ihl ihr =>
    obtain ⟨hl, hop, hr'⟩ := he
    obtain ⟨hrl, hrr, hltop, hrtop⟩ := hr
    -- below the left operand nothing yields to its operators, which bind at least as tightly
    have hbl : Blocked kind pred l stk := fun t ht =>
      (hb t ht).imp id fun h o ho => Nat.lt_of_le_of_lt (hltop o ho) (h op rfl)
    obtain ⟨xs, ys, hrun, hpost, hys⟩ := ihl out hl hrl hbl
    have hstep : yardStep kind pred (out ++ xs, ys ++ stk) op = some (out ++ xs ++ ys, op :: stk) := by
      refine yardStep_oper hop (fun y hy => ?_) fun t ht => (hb t ht).imp id fun h => h op rfl
      obtain ⟨hk, o, ho, hle⟩ := hys y hy
      exact ⟨hk, Nat.le_trans hle (hltop o ho)⟩
    have hbr : Blocked kind pred r (op :: stk) := by
      rintro t ⟨⟩
      exact .inr hrtop
    obtain ⟨xs', ys', hrun', hpost', hys'⟩ := ihr (out ++ xs ++ ys) hr' hrr hbr
    refine ⟨xs ++ ys ++ xs', ys' ++ [op], ?_, ?_, fun y hy => ?_⟩
    · rw [Expr.toks, yard_append, hrun, bind_some, yard_cons, hstep, bind_some, hrun']
      simp
    · simp [Expr.post, ← hpost, ← hpost']
    · rcases mem_append.1 hy with hy | hy
      · obtain ⟨hk, o, ho, hle⟩ := hys' y hy
        exact ⟨hk, op, rfl, Nat.le_trans hle (Nat.le_of_lt (hrtop o ho))⟩
      · obtain rfl := mem_singleton.1 hy
        exact ⟨by simp [hop], y, rfl, Nat.le_refl _⟩

end Yard

section Stack
variable {α V : Type*} (kind : α → Kind) (val : α → V) (apply : α → V → V → V)

/-- One symbol of a postfix list: operands go on the stack, an operator takes two values off. -/
def stackStep (st : List V) (a : α) : Option (List V) :=
  if kind a = .oper then
    match st with
    | v :: v2 :: st => some (apply a v2 v :: st)
    | _ => none
  else some (val a :: st)

def stackRun (st : List V) (xs : List α) : Option (List V) := xs.foldlM (stackStep kind val apply) st

variable {kind val apply}

theorem stackRun_post {e : Expr α} {st : List V} (he : e.Shaped kind) :
    stackRun kind val apply st e.post = some (e.eval val apply :: st) := by
  induction e generalizing st with
  | leaf a => simp [stackRun, Expr.post, stackStep, show kind a = .operand from he, Expr.eval]
  | paren _ e _ ih => exact ih he.2.1
  | bin l op r ihl ihr =>
    have hl : stackRun kind val apply st l.post = some (l.eval val apply :: st) := ihl he.1
    have hr : stackRun kind val apply (l.eval val apply :: st) r.post =
      some (r.eval val apply :: l.eval val apply :: st) := ihr he.2.2
    unfold stackRun at hl hr ⊢
    rw [Expr.post, foldlM_append, hl]
    simp only [bind_eq_bind, bind_some, foldlM_append, hr]
    simp [stackStep, he.2.1, Expr.eval]

end Stack
end Prj.Base
