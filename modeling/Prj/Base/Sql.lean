import Mathlib.Data.List.Chain

/-! Conditions of SQL: tokens, syntax trees, their values with NULL, and a parser by precedence. -/
namespace Prj.Base.Sql
open List

inductive Cmp
  | eq
  | ne
  | lt
  | le
  | gt
  | ge
deriving DecidableEq, Repr

inductive Bin
  | or_
  | and_
  | cmp (op : Cmp)
  | like
  | notLike
deriving DecidableEq, Repr

/-- A `word` is one that no rule of the grammar has. -/
inductive Tok (C : Type)
  | col (c : C)
  | param (i : ℕ)
  | bin (op : Bin)
  | between
  | not_
  | openp
  | closep
  | word
deriving DecidableEq

inductive Expr (C : Type)
  | col (c : C)
  | param (i : ℕ)
  | bin (op : Bin) (l r : Expr C)
  | between (e lo hi : Expr C)
  | not_ (e : Expr C)
deriving DecidableEq

/-- The grammar without its precedences: a parser may choose any of these trees. -/
inductive Derives {C : Type} : List (Tok C) → Expr C → Prop
  | col (c : C) : Derives [.col c] (.col c)
  | param (i : ℕ) : Derives [.param i] (.param i)
  | bin (op : Bin) {ls rs : List (Tok C)} {l r : Expr C} :
    Derives ls l → Derives rs r → Derives (ls ++ .bin op :: rs) (.bin op l r)
  | between {es ls hs : List (Tok C)} {e lo hi : Expr C} :
    Derives es e → Derives ls lo → Derives hs hi →
      Derives (es ++ .between :: (ls ++ .bin .and_ :: hs)) (.between e lo hi)
  | not_ {es : List (Tok C)} {e : Expr C} : Derives es e → Derives (.not_ :: es) (.not_ e)
  | paren {es : List (Tok C)} {e : Expr C} : Derives es e → Derives (.openp :: (es ++ [.closep])) e

section Eval
variable {C V : Type}

structure Ops (V : Type) where
  cmp : Cmp → V → V → Bool
  like : V → V → Bool
  truth : V → Bool
  ofBool : Bool → V

def and3 : Option Bool → Option Bool → Option Bool
  | some false, _ => some false
  | _, some false => some false
  | some true, some true => some true
  | _, _ => none

def or3 : Option Bool → Option Bool → Option Bool
  | some true, _ => some true
  | _, some true => some true
  | some false, some false => some false
  | _, _ => none

def strict (o : Ops V) (f : V → V → Bool) : Option V → Option V → Option V
  | some a, some b => some (o.ofBool (f a b))
  | _, _ => none

def Bin.eval (o : Ops V) : Bin → Option V → Option V → Option V
  | .or_, a, b => (or3 (a.map o.truth) (b.map o.truth)).map o.ofBool
  | .and_, a, b => (and3 (a.map o.truth) (b.map o.truth)).map o.ofBool
  | .cmp op, a, b => strict o (o.cmp op) a b
  | .like, a, b => strict o o.like a b
  | .notLike, a, b => strict o (fun a b => !o.like a b) a b

/-- The value for a row, with the values that are bound to the parameters. -/
def Expr.eval (o : Ops V) (row : C → Option V) (bound : ℕ → Option V) : Expr C → Option V
  | .col c => row c
  | .param i => bound i
  | .bin op l r => op.eval o (l.eval o row bound) (r.eval o row bound)
  | .between e lo hi =>
    Bin.eval o .and_ (Bin.eval o (.cmp .ge) (e.eval o row bound) (lo.eval o row bound))
      (Bin.eval o (.cmp .le) (e.eval o row bound) (hi.eval o row bound))
  | .not_ e => (e.eval o row bound).map fun a => o.ofBool (!o.truth a)

/-- A `WHERE` with this condition takes the row. -/
def Expr.holds (o : Ops V) (row : C → Option V) (bound : ℕ → Option V) (e : Expr C) : Bool :=
  (e.eval o row bound).any o.truth

end Eval

section Unbound
variable {C V : Type} {o : Ops V} {row : C → Option V} {ts : List (Tok C)} {e : Expr C}

@[simp] theorem strict_none_right (f : V → V → Bool) (a : Option V) : strict o f a none = none := by
  cases a <;> rfl

@[simp] theorem Bin.eval_none (op : Bin) : op.eval o none none = none := by
  cases op <;> rfl

/-- The operators that can stand behind a column in a comparison. -/
def Tok.Compares : Tok C → Prop
  | .bin (.cmp _) | .bin .like | .bin .notLike | .between => True
  | _ => False

def Tok.Follows : Tok C → Tok C → Prop
  | .col _, t => t.Compares
  | _, _ => True

/-- Every column is compared with what stands behind the comparison. -/
structure Tok.Compared (ts : List (Tok C)) : Prop where
  chain : ts.IsChain Tok.Follows
  last : ∀ c, ts.getLast? ≠ some (.col c)

section
variable {t : Tok C} {ls rs : List (Tok C)} (h : Tok.Compared (ls ++ t :: rs))
include h

theorem Tok.Compared.right : Tok.Compared rs := by
  constructor
  · exact (h.chain.right_of_append).tail
  · intro c hc
    apply h.last c
    rw [getLast?_append, getLast?_cons, hc]
    rfl

theorem Tok.Compared.left (ht : ¬t.Compares) : Tok.Compared ls := by
  constructor
  · exact h.chain.left_of_append
  · intro c hc
    obtain ⟨-, -, hfollows⟩ := isChain_append.1 h.chain
    exact ht (hfollows (.col c) (by simp [hc]) t (by simp))

end

theorem Tok.Compared.append {ls rs : List (Tok C)} (hl : Tok.Compared ls) (hr : Tok.Compared rs) :
    Tok.Compared (ls ++ rs) := by
  constructor
  · apply hl.chain.append hr.chain
    intro t ht u _
    cases t with
    | col c => exact absurd ht (hl.last c)
    | _ => trivial
  · intro c hc
    cases hlast : rs.getLast? with
    | none => exact hl.last c (by simpa [hlast] using hc)
    | some t => exact hr.last c (by simpa [hlast] using hc)

theorem Derives.eval_eq_none (h : Derives ts e) (hts : Tok.Compared ts) : e.eval o row (fun _ => none) = none := by
  induction h with
  | col c => exact absurd rfl (hts.last c)
  | param i => rfl
  | bin op hl hr ihl ihr =>
    have hright := ihr hts.right
    cases op with
    | cmp | like | notLike => simp [Expr.eval, Bin.eval, hright]
    | or_ | and_ =>
      have hleft := ihl (hts.left (fun h => h))
      rw [Expr.eval, hleft, hright, Bin.eval_none]
  | between he hl hh ihe ihl ihh =>
    have hrest := hts.right
    have hlo := ihl (hrest.left (fun h => h))
    have hhi := ihh hrest.right
    simp [Expr.eval, hlo, hhi, Bin.eval, and3]
  | @not_ es e he ih =>
    have hts : Tok.Compared ([] ++ .not_ :: es) := hts
    rw [Expr.eval, ih hts.right, Option.map_none]
  | @paren es e he ih =>
    have hts : Tok.Compared ([] ++ .openp :: (es ++ [.closep])) := hts
    exact ih (hts.right.left (fun h => h))

end Unbound

section Parse
variable {C : Type}

/-- How tightly the operators bind: `NOT` is 2, `BETWEEN` is as `=`. -/
def Bin.prec : Bin → ℕ
  | .or_ => 0
  | .and_ => 1
  | .like | .notLike | .cmp .eq | .cmp .ne => 3
  | .cmp _ => 4

mutual

/-- An operand and the operators behind it that bind as tightly as `least` at least. -/
def parse : ℕ → ℕ → List (Tok C) → Option (Expr C × List (Tok C))
  | 0, _, _ => none
  | n + 1, least, ts =>
    match ts with
    | .col c :: ts => climb n least (.col c) ts
    | .param i :: ts => climb n least (.param i) ts
    | .not_ :: ts =>
      match parse n 2 ts with
      | some (e, ts) => climb n least (.not_ e) ts
      | none => none
    | .openp :: ts =>
      match parse n 0 ts with
      | some (e, .closep :: ts) => climb n least e ts
      | _ => none
    | _ => none

def climb : ℕ → ℕ → Expr C → List (Tok C) → Option (Expr C × List (Tok C))
  | 0, _, _, _ => none
  | n + 1, least, l, ts =>
    match ts with
    | .bin op :: rs =>
      if op.prec < least then some (l, ts)
      else
        match parse n (op.prec + 1) rs with
        | some (r, rs) => climb n least (.bin op l r) rs
        | none => none
    | .between :: rs =>
      if 3 < least then some (l, ts)
      else
        match parse n 4 rs with
        | some (lo, .bin .and_ :: rs) =>
          match parse n 4 rs with
          | some (hi, rs) => climb n least (.between l lo hi) rs
          | none => none
        | _ => none
    | _ => some (l, ts)

end

def parseAll (ts : List (Tok C)) : Option (Expr C) :=
  match parse (2 * ts.length + 2) 0 ts with
  | some (e, []) => some e
  | _ => none

theorem parse_climb_derives (n : ℕ) : (∀ least (ts : List (Tok C)) e rest, parse n least ts = some (e, rest) →
      ∃ used, ts = used ++ rest ∧ Derives used e) ∧ ∀ least l (before ts : List (Tok C)) e rest, Derives before l →
      climb n least l ts = some (e, rest) → ∃ used, ts = used ++ rest ∧ Derives (before ++ used) e := by
  induction n with
  | zero => simp [parse, climb]
  | succ n ih =>
    obtain ⟨ihp, ihc⟩ := ih
    constructor
    · intro least ts e rest h
      -- what stands before the operators, and then the operators
      have hgo : ∀ before l ts', ts = before ++ ts' → Derives before l →
          climb n least l ts' = some (e, rest) → ∃ used, ts = used ++ rest ∧ Derives used e := by
        intro before l ts' hts hl hclimb
        obtain ⟨used, rfl, he⟩ := ihc least l before ts' e rest hl hclimb
        exact ⟨before ++ used, by rw [hts, append_assoc], he⟩
      simp only [parse] at h
      split at h
      · exact hgo [.col _] _ _ rfl (.col _) h
      · exact hgo [.param _] _ _ rfl (.param _) h
      · split at h
        · obtain ⟨used, rfl, he⟩ := ihp _ _ _ _ ‹_›
          exact hgo (.not_ :: used) _ _ rfl (.not_ he) h
        · simp at h
      · split at h
        · obtain ⟨used, rfl, he⟩ := ihp _ _ _ _ ‹_›
          exact hgo (.openp :: (used ++ [.closep])) _ _ (by simp) (.paren he) h
        · simp at h
      · simp at h
    · intro least l before ts e rest hl h
      have hgo : ∀ mid l' ts', ts = mid ++ ts' → Derives (before ++ mid) l' → climb n least l' ts' = some (e, rest) →
            ∃ used, ts = used ++ rest ∧ Derives (before ++ used) e := by
        intro mid l' ts' hts hl' hclimb
        obtain ⟨used, rfl, he⟩ := ihc least l' (before ++ mid) ts' e rest hl' hclimb
        exact ⟨mid ++ used, by rw [hts, append_assoc], by rwa [← append_assoc]⟩
      have hstop : some (l, ts) = some (e, rest) → ∃ used, ts = used ++ rest ∧ Derives (before ++ used) e := by
        intro h
        cases h
        exact ⟨[], rfl, by rwa [append_nil]⟩
      simp only [climb] at h
      split at h
      · split_ifs at h
        · exact hstop h
        · split at h
          · obtain ⟨used, rfl, hr⟩ := ihp _ _ _ _ ‹_›
            exact hgo (.bin _ :: used) _ _ rfl (.bin _ hl hr) h
          · simp at h
      · split_ifs at h
        · exact hstop h
        · split at h
          · obtain ⟨used, rfl, hlo⟩ := ihp _ _ _ _ ‹_›
            split at h
            · obtain ⟨used', rfl, hhi⟩ := ihp _ _ _ _ ‹_›
              exact hgo (.between :: (used ++ .bin .and_ :: used')) _ _ (by simp) (.between hl hlo hhi) h
            · simp at h
          · simp at h
      · exact hstop h

theorem derives_of_parseAll {ts : List (Tok C)} {e : Expr C} (h : parseAll ts = some e) : Derives ts e := by
  unfold parseAll at h
  split at h
  · rename_i e' hparse
    obtain ⟨used, hts, he⟩ := (parse_climb_derives _).1 _ _ _ _ hparse
    rw [append_nil] at hts
    rw [hts, ← Option.some.inj h]
    exact he
  · simp at h

end Parse
end Prj.Base.Sql
