import Mathlib.Data.List.TakeWhile
import Prj.Base.Chain
import Prj.Ddlus.Token

/-! The stack and the prefix list of an expression (`ddlus/console/stack.c`). Both are linked through
the `next` field of the tokens, so a token is in one of them at a time. Tokens are numbered; a loop
takes fuel, and `none` means that it ran out or that a null pointer was followed. -/
namespace Prj.Ddlus
open Prj.Base Function List

/-- A session seen from its current expression: the tokens with their links, the pointers of
`sess->pre->exp`, and what calculating reads and writes. `prenext` and `prefixlast` have no value
before they are set. -/
structure Mach (F : Type) where
  tok : ℕ → Tok F
  next : ℕ → Option ℕ
  prenext : ℕ → Option ℕ
  infixnext : ℕ → Option ℕ
  infixfirst : Option ℕ
  prefixfirst : Option ℕ
  prefixlast : Option ℕ
  saveprefixfirst : Option ℕ
  stacktop : Option ℕ
  vars : List (Var F)
  ncalc : ℤ
  calcreg : ℤ
  out : List Msg

namespace Mach
variable {F : Type} {a b c : Mach F}

def insertPre (m : Mach F) (tk : ℕ) : Option (Mach F) :=
  let m := { m with next := update m.next tk none }
  match m.prefixfirst with
  | none => some { m with prefixfirst := some tk, prefixlast := some tk }
  | some _ =>
    match m.prefixlast with
    | none => none
    | some last => some { m with next := update m.next last (some tk), prefixlast := some tk }

/-- `poptok`; a bracket on top is dropped and nothing is returned. -/
def poptok (m : Mach F) : Option ℕ × Mach F :=
  match m.stacktop with
  | none => (none, m)
  | some tk =>
    if (m.tok tk).id ≠ .brOpen then
      (some tk, { m with stacktop := m.next tk, next := update m.next tk none })
    else (none, { m with stacktop := m.next tk })

def popToPre (m : Mach F) : Option (Mach F) :=
  match m.stacktop with
  | none => some m
  | some tk =>
    if (m.tok tk).id ≠ .brOpen then insertPre { m with stacktop := m.next tk } tk
    else some { m with stacktop := m.next tk }

/-- `while(stacktop && !stop(stacktop)) pop_to_pre(sess);` -/
def popWhile (go : Tok F → Bool) : ℕ → Mach F → Option (Mach F)
  | 0, _ => none
  | fuel + 1, m =>
    match m.stacktop with
    | none => some m
    | some tk => if go (m.tok tk) then (popToPre m).bind (popWhile go fuel) else some m

def popAll (fuel : ℕ) (m : Mach F) : Option (Mach F) := popWhile (fun _ => true) fuel m

def popToBr (fuel : ℕ) (m : Mach F) : Option (Bool × Mach F) := do
  let m ← popWhile (fun t => t.id ≠ .brOpen) fuel m
  match m.stacktop with
  | none => return (false, m)
  | some tk => return (true, { m with stacktop := m.next tk })

/-- `pop_to_abr`; the bracket itself goes to the prefix list. -/
def popToAbr (fuel : ℕ) (m : Mach F) : Option (Bool × Mach F) := do
  let m ← popWhile (fun t => t.id ≠ .abrOpen) fuel m
  match m.stacktop with
  | none => return (false, m)
  | some _ => return (true, ← popToPre m)

/-- `pop_to_br_for_col`; only a comma is taken off. -/
def popToBrForCol (fuel : ℕ) (m : Mach F) : Option (Bool × Mach F) := do
  let m ← popWhile (fun t => !(t.id = .brOpen || t.id = .abrOpen || t.id = .col)) fuel m
  match m.stacktop with
  | none => return (false, m)
  | some tk =>
    if (m.tok tk).id = .col then return (true, { m with stacktop := m.next tk })
    else return (true, m)

def pushCalc (m : Mach F) (tk : ℕ) : Mach F :=
  { m with next := update m.next tk m.stacktop, stacktop := some tk }

/-- `push`; `cur` is the current token. -/
def push (fuel : ℕ) (m : Mach F) (cur : ℕ) : Option (Mach F) := do
  let t := m.tok cur
  let m ← if t.id ≠ .brOpen ∧ t.id ≠ .abrOpen then
      popWhile (fun top => t.pred ≥ top.pred && top.id ≠ .brOpen && top.id ≠ .abrOpen) fuel m
    else some m
  return pushCalc m cur

/-! While an expression is compiled, the prefix list and the stack are two lists of tokens. -/

/-- The prefix list is `out` and the stack is `stk`. -/
structure YardAt (m : Mach F) (out stk : List ℕ) : Prop where
  pre : Chain m.next m.prefixfirst out
  last : out ≠ [] → m.prefixlast = out.getLast?
  stack : Chain m.next m.stacktop stk
  nodup : (out ++ stk).Nodup

def Relinks (m m' : Mach F) : Prop :=
  ∃ next first last save top, m' = { m with
      next, prefixfirst := first, prefixlast := last, saveprefixfirst := save, stacktop := top }

theorem Relinks.refl (m : Mach F) : Relinks m m := ⟨_, _, _, _, _, rfl⟩

theorem Relinks.trans (hab : Relinks a b) (hbc : Relinks b c) : Relinks a c := by
  obtain ⟨_, _, _, _, _, rfl⟩ := hab
  obtain ⟨_, _, _, _, _, rfl⟩ := hbc
  exact ⟨_, _, _, _, _, rfl⟩

theorem Relinks.tok_eq (h : Relinks a b) : b.tok = a.tok := by
  obtain ⟨_, _, _, _, _, rfl⟩ := h
  rfl

theorem Relinks.infixnext_eq (h : Relinks a b) : b.infixnext = a.infixnext := by
  obtain ⟨_, _, _, _, _, rfl⟩ := h
  rfl

section
variable {m : Mach F} {out stk : List ℕ} {tk fuel : ℕ}

theorem insertPre_spec (h : YardAt m out stk) (htk : tk ∉ out ++ stk) :
    ∃ m', insertPre m tk = some m' ∧ YardAt m' (out ++ [tk]) stk ∧ Relinks m m' := by
  have hout : tk ∉ out := fun hmem => htk (by simp [hmem])
  have hstk : tk ∉ stk := fun hmem => htk (by simp [hmem])
  have hnodup : (out ++ [tk] ++ stk).Nodup := by
    rw [append_assoc, singleton_append, nodup_middle]
    exact nodup_cons.2 ⟨htk, h.nodup⟩
  rcases eq_nil_or_concat' out with rfl | ⟨as, a, rfl⟩
  · have hnone : m.prefixfirst = none := h.pre
    refine ⟨{ m with
        next := update m.next tk none, prefixfirst := some tk, prefixlast := some tk },
      by simp [insertPre, hnone], ⟨by simp, by simp, h.stack.update hstk, hnodup⟩, ⟨_, _, _, _, _, rfl⟩⟩
  · obtain ⟨p, hp⟩ : ∃ p, m.prefixfirst = some p := by
      cases as <;> exact ⟨_, h.pre.1⟩
    have hlast : m.prefixlast = some a := by simpa using h.last (by simp)
    have ha : a ∉ stk := fun hmem =>
      (disjoint_of_nodup_append h.nodup) (a := a) (by simp) hmem
    refine ⟨{ m with
        next := update (update m.next tk none) a (some tk), prefixlast := some tk },
      by simp [insertPre, hp, hlast], ⟨?_, by simp, ?_, hnodup⟩, ⟨_, _, _, _, _, rfl⟩⟩
    · simpa using Chain.snoc h.pre hout
    · exact (h.stack.update hstk).update ha

theorem popToPre_spec (h : YardAt m out (tk :: stk)) (hid : (m.tok tk).id ≠ .brOpen) :
    ∃ m', popToPre m = some m' ∧ YardAt m' (out ++ [tk]) stk ∧ Relinks m m' := by
  have htop : m.stacktop = some tk := h.stack.1
  have htk : tk ∉ out ++ stk := by
    have hn := h.nodup
    rw [nodup_middle] at hn
    exact (nodup_cons.1 hn).1
  have hrest : YardAt { m with stacktop := m.next tk } out stk :=
    ⟨h.pre, h.last, h.stack.2, h.nodup.sublist (by simp)⟩
  obtain ⟨m', hm', hy, hr⟩ := insertPre_spec hrest htk
  exact ⟨m', by simp [popToPre, htop, hid, hm'], hy, Relinks.trans ⟨_, _, _, _, _, rfl⟩ hr⟩

theorem pushCalc_spec (h : YardAt m out stk) (htk : tk ∉ out ++ stk) :
    YardAt (pushCalc m tk) out (tk :: stk) ∧ Relinks m (pushCalc m tk) := by
  have hout : tk ∉ out := fun hmem => htk (by simp [hmem])
  have hstk : tk ∉ stk := fun hmem => htk (by simp [hmem])
  refine ⟨⟨h.pre.update hout, h.last, h.stack.push hstk, ?_⟩, ⟨_, _, _, _, _, rfl⟩⟩
  rw [nodup_middle]
  exact nodup_cons.2 ⟨htk, h.nodup⟩

theorem popWhile_spec (go : Tok F → Bool) {p : ℕ → Bool} (h : YardAt m out stk)
    (hp : ∀ t ∈ stk, go (m.tok t) = p t) (hbr : ∀ t ∈ stk, p t = true → (m.tok t).id ≠ .brOpen)
    (hfuel : stk.length < fuel) : ∃ m', popWhile go fuel m = some m' ∧ Relinks m m' ∧
      YardAt m' (out ++ stk.takeWhile p) (stk.dropWhile p) := by
  induction stk generalizing m out fuel with
  | nil =>
    obtain ⟨fuel, rfl⟩ := Nat.exists_eq_add_of_lt hfuel
    have htop : m.stacktop = none := h.stack
    exact ⟨m, by simp [popWhile, htop], .refl m, by simpa using h⟩
  | cons tk stk ih =>
    obtain ⟨fuel, rfl⟩ : ∃ k, fuel = k + 1 := ⟨fuel - 1, by omega⟩
    have htop : m.stacktop = some tk := h.stack.1
    have hgo := hp tk (by simp)
    cases hb : p tk with
    | false => exact ⟨m, by simp [popWhile, htop, hgo, hb], .refl m, by simpa [hb] using h⟩
    | true =>
      obtain ⟨m1, hm1, hy, hr⟩ := popToPre_spec h (hbr tk (by simp) hb)
      have htok := hr.tok_eq
      obtain ⟨m2, hm2, hr2, hy2⟩ := ih hy (fun t ht => by rw [htok]; exact hp t (by simp [ht]))
        (fun t ht => by rw [htok]; exact hbr t (by simp [ht])) (by simpa using hfuel)
      refine ⟨m2, by simp [popWhile, htop, hgo, hb, hm1, hm2], hr.trans hr2, ?_⟩
      simpa [hb] using hy2

end
end Mach

/-! From infix to postfix (`ddlus/console/parse.c`), once the tokens are cut and combined. -/

open Option

namespace Mach
variable {F : Type}

/-- Go on if the bracket was found, or print `MSG_MATCH`. `PREF_FOR_ADVANCE` is never set, and the
previous token is null. -/
def matched (str : List Char) (r : Option (Bool × Mach F))
    (k : Mach F → Option (Bool × Mach F)) : Option (Bool × Mach F) :=
  r.bind fun bm =>
    if bm.1 then k bm.2 else some (false, { bm.2 with out := .nomatch [] str :: bm.2.out })

/-- One round of the loop of `push_infix`. -/
def infixStep (fuel : ℕ) (m : Mach F) (cur : ℕ) : Option (Bool × Mach F) :=
  let t := m.tok cur
  match t.type with
  | .command | .mathFunc | .func | .mathLogic | .block => (push fuel m cur).map (true, ·)
  | .mathBasic =>
    match t.id with
    | .brClose => matched t.str (popToBr fuel m) fun m => some (true, m)
    | .abrClose => matched t.str (popToAbr fuel m) fun m => some (true, { m with ncalc := m.calcreg })
    | .abrOpen => (push fuel { m with calcreg := m.ncalc } cur).map (true, ·)
    | _ => (push fuel m cur).map (true, ·)
  | .spec =>
    match t.id with
    | .col => matched t.str (popToBrForCol fuel m) fun m => (push fuel m cur).map (true, ·)
    | _ => some (true, m)
  | _ => (insertPre m cur).map (true, ·)

/-- The loop of `push_infix` from the token `cur` on. -/
def pushInfix (fuel : ℕ) : ℕ → Option ℕ → Mach F → Option (Bool × Mach F)
  | 0, _, _ => none
  | _ + 1, none, m => some (true, m)
  | n + 1, some cur, m =>
    match infixStep fuel m cur with
    | some (true, m) => pushInfix fuel n (m.infixnext cur) m
    | r => r

/-- `while((tk = poptok(sess))) insert_pre(sess, tk);` -/
def flushStack : ℕ → Mach F → Option (Mach F)
  | 0, _ => none
  | fuel + 1, m =>
    match poptok m with
    | (none, m) => some m
    | (some tk, m) => (insertPre m tk).bind (flushStack fuel)

/-- The end of `prefix`: the tokens are in the infix list of the expression. -/
def compile (fuel : ℕ) (m : Mach F) : Option (Bool × Mach F) :=
  match pushInfix fuel fuel m.infixfirst m with
  | some (true, m) =>
    (flushStack fuel m).map fun m => (true, { m with saveprefixfirst := m.prefixfirst })
  | r => r

/-- What `restore_prefix` does to one token. -/
def restoreTok [Fnum F] (t : Tok F) : Tok F :=
  if t.type = .number ∨ t.id = .var ∨ t.id = .array then
    if t.id = .int ∨ t.id = .real ∨ t.id = .science then
      if isNeg t.valreg then { t with val := Fnum.neg t.valreg, neg := true }
      else { t with val := t.valreg, neg := false }
    else { t with res := false, i := -1, j := -1 }
  else t

/-- The loop of `restore_prefix` over the tokens of one expression, from `ent` on. -/
def restoreWalk [Fnum F] : ℕ → Option ℕ → Mach F → Option (Mach F)
  | 0, _, _ => none
  | _ + 1, none, m => some m
  | fuel + 1, some ent, m =>
    restoreWalk fuel (m.prenext ent) { m with
        tok := update m.tok ent (restoreTok (m.tok ent))
        next := update m.next ent (m.prenext ent) }

/-- One round of the loop of `restore_prefix` over the expressions, without the branch. -/
def restoreExp [Fnum F] (fuel : ℕ) (m : Mach F) : Option (Mach F) :=
  restoreWalk fuel m.saveprefixfirst { m with prefixfirst := m.saveprefixfirst }

end Mach

/-- How `push_infix` treats a token: array brackets and separators apart. -/
def TokId.kind (id : TokId) : Kind :=
  match id with
  | brOpen => .opn
  | brClose => .cls
  | id =>
    match id.type with
    | .number | .string | .reserve => .operand
    | _ => .oper

def TokId.Plain (id : TokId) : Prop := id ≠ .abrOpen ∧ id ≠ .abrClose ∧ id.type ≠ .spec

namespace Mach
variable {F : Type} {m m' : Mach F} {out stk ys xs : List ℕ} {cur fuel : ℕ} {st : List ℕ × List ℕ} {id : TokId} {tk : ℕ}

abbrev kind (m : Mach F) (a : ℕ) : Kind := (m.tok a).id.kind

abbrev pred (m : Mach F) (a : ℕ) : ℕ := (m.tok a).pred

theorem kind_eq_opn_iff : id.kind = .opn ↔ id = .brOpen := by
  cases id <;> simp [TokId.kind, TokId.type]

theorem kind_eq_cls_iff : id.kind = .cls ↔ id = .brClose := by
  cases id <;> simp [TokId.kind, TokId.type]

/-- Outside array brackets `push` lets go what yields in the sense of the two-stack algorithm. -/
theorem push_spec (h : YardAt m out stk) (hcur : cur ∉ out ++ stk) (hfuel : stk.length < fuel)
    (hp : (m.tok cur).id.Plain) (hstk : ∀ t ∈ stk, (m.tok t).id.Plain) (hk : m.kind cur = .oper) :
    ∃ m', push fuel m cur = some m' ∧ Relinks m m' ∧ YardAt m' (out ++ stk.takeWhile (yields m.kind m.pred cur))
        (cur :: stk.dropWhile (yields m.kind m.pred cur)) := by
  have hbr : (m.tok cur).id ≠ .brOpen := fun heq => by simp [Mach.kind, heq, TokId.kind] at hk
  obtain ⟨m', hm', hr, hy⟩ := popWhile_spec
    (fun top => (m.tok cur).pred ≥ top.pred && top.id ≠ .brOpen && top.id ≠ .abrOpen)
    (p := yields m.kind m.pred cur) h
    (fun t ht => by simp [yields, kind_eq_opn_iff, (hstk t ht).1, Bool.and_comm])
    (fun t _ ht heq => by simp [yields, kind_eq_opn_iff, heq] at ht) hfuel
  have hcur' : cur ∉ (out ++ stk.takeWhile (yields m.kind m.pred cur)) ++ stk.dropWhile (yields m.kind m.pred cur) := by
    rwa [append_assoc, takeWhile_append_dropWhile]
  obtain ⟨hy', hr'⟩ := pushCalc_spec hy hcur'
  refine ⟨_, ?_, hr.trans hr', hy'⟩
  rw [push, if_pos ⟨hbr, hp.1⟩, hm']
  rfl

theorem popToBr_spec (h : YardAt m out (ys ++ tk :: stk))
    (hys : ∀ t ∈ ys, (m.tok t).id ≠ .brOpen) (htk : (m.tok tk).id = .brOpen) (hfuel : (ys ++ tk :: stk).length < fuel) :
    ∃ m', popToBr fuel m = some (true, m') ∧ Relinks m m' ∧ YardAt m' (out ++ ys) stk := by
  obtain ⟨m', hm', hr, hy⟩ := popWhile_spec (fun t => t.id ≠ .brOpen)
    (p := fun t => (m.tok t).id ≠ .brOpen) h (fun t _ => by simp) (fun t _ ht => by simpa using ht)
    hfuel
  have htake : (ys ++ tk :: stk).takeWhile (fun t => (m.tok t).id ≠ .brOpen) = ys := by
    rw [takeWhile_append_of_pos (by simpa using hys)]
    simp [htk]
  have hdrop : (ys ++ tk :: stk).dropWhile (fun t => (m.tok t).id ≠ .brOpen) = tk :: stk := by
    rw [dropWhile_append_of_pos (by simpa using hys)]
    simp [htk]
  rw [htake, hdrop] at hy
  have htop : m'.stacktop = some tk := hy.stack.1
  refine ⟨{ m' with stacktop := m'.next tk }, ?_, hr.trans ⟨_, _, _, _, _, rfl⟩,
    hy.pre, hy.last, hy.stack.2, hy.nodup.sublist (by simp)⟩
  rw [popToBr, hm']
  simp [htop]

theorem infixStep_operand (ht : (m.tok cur).FromTable) (hk : m.kind cur = .operand) :
    infixStep fuel m cur = (insertPre m cur).map (true, ·) := by
  have htype : ∀ id : TokId, id.kind = .operand → id.type = .number ∨ id.type = .string ∨ id.type = .reserve := by
    intro id
    cases id <;> simp [TokId.kind, TokId.type]
  rcases htype _ hk with h | h | h <;> simp [infixStep, ht.1, h]

theorem infixStep_push (ht : (m.tok cur).FromTable) (hp : (m.tok cur).id.Plain)
    (hk : m.kind cur = .oper ∨ m.kind cur = .opn) : infixStep fuel m cur = (push fuel m cur).map (true, ·) := by
  simp only [infixStep]
  rw [ht.1]
  revert hp hk
  unfold Mach.kind
  cases (m.tok cur).id <;> simp [TokId.kind, TokId.type, TokId.Plain]

theorem infixStep_spec (h : YardAt m out stk) (hcur : cur ∉ out ++ stk)
    (hfuel : stk.length < fuel) (ht : (m.tok cur).FromTable) (hp : (m.tok cur).id.Plain)
    (hstk : ∀ t ∈ stk, (m.tok t).id.Plain) (hst : yardStep m.kind m.pred (out, stk) cur = some st) :
    ∃ m', infixStep fuel m cur = some (true, m') ∧ Relinks m m' ∧ YardAt m' st.1 st.2 := by
  unfold yardStep at hst
  split at hst
  case h_1 hk =>
    cases hst
    obtain ⟨m', hm', hy, hr⟩ := insertPre_spec h hcur
    exact ⟨m', by rw [infixStep_operand ht hk, hm']; rfl, hr, hy⟩
  case h_2 hk =>
    cases hst
    obtain ⟨m', hm', hr, hy⟩ := push_spec h hcur hfuel hp hstk hk
    exact ⟨m', by rw [infixStep_push ht hp (.inl hk), hm']; rfl, hr, hy⟩
  case h_3 hk =>
    cases hst
    obtain ⟨hy, hr⟩ := pushCalc_spec h hcur
    exact ⟨_, by rw [infixStep_push ht hp (.inr hk)]; simp [push, kind_eq_opn_iff.1 hk], hr, hy⟩
  case h_4 hk =>
    split at hst
    · cases hst
    next tk stk' hdrop =>
      cases hst
      have hsplit : stk = stk.takeWhile (fun a => decide (m.kind a ≠ .opn)) ++ tk :: stk' := by
        rw [← hdrop, takeWhile_append_dropWhile]
      have htk : m.kind tk = .opn := by
        have hhead := head?_dropWhile_not (fun a => decide (m.kind a ≠ .opn)) stk
        rw [hdrop] at hhead
        simpa using hhead
      have hys : ∀ t ∈ stk.takeWhile (fun a => decide (m.kind a ≠ .opn)), (m.tok t).id ≠ .brOpen := fun t ht => by
        simpa [kind_eq_opn_iff] using mem_takeWhile_imp ht
      rw [hsplit] at h hfuel
      obtain ⟨m', hm', hr, hy⟩ := popToBr_spec h hys (kind_eq_opn_iff.1 htk) hfuel
      exact ⟨m', by simp [infixStep, ht.1, kind_eq_cls_iff.1 hk, TokId.type, matched, hm'], hr, hy⟩

/-- The loop of `push_infix` is the two-stack algorithm. -/
theorem pushInfix_spec {n : ℕ} {p : Option ℕ}
    (h : YardAt m out stk) (hxs : Chain m.infixnext p xs) (hdis : ∀ x ∈ xs, x ∉ out ++ stk)
    (ht : ∀ x ∈ xs, (m.tok x).FromTable ∧ (m.tok x).id.Plain) (hstk : ∀ t ∈ out ++ stk, (m.tok t).id.Plain)
    (hfuel : stk.length + xs.length < fuel) (hn : xs.length < n) (hst : yard m.kind m.pred (out, stk) xs = some st) :
    ∃ m', pushInfix fuel n p m = some (true, m') ∧ Relinks m m' ∧ YardAt m' st.1 st.2 := by
  induction xs generalizing m out stk n p with
  | nil =>
    obtain ⟨n, rfl⟩ := Nat.exists_eq_add_of_lt hn
    cases hst
    obtain rfl : p = none := hxs
    exact ⟨m, by simp [pushInfix], .refl m, h⟩
  | cons x xs ih =>
    obtain ⟨n, rfl⟩ : ∃ k, n = k + 1 := ⟨n - 1, by omega⟩
    obtain ⟨rfl, hnext⟩ := hxs
    obtain ⟨⟨out1, stk1⟩, hst1, hst⟩ := bind_eq_some_iff.1 hst
    have hx := ht x (by simp)
    have hmem := fun y => mem_of_yardStep (x := y) hst1
    have hlen := length_yardStep_le hst1
    simp only [length_cons] at hfuel hn hlen
    obtain ⟨m1, hm1, hr, hy⟩ := infixStep_spec h (hdis x (by simp))
      (show stk.length < fuel by omega) hx.1 hx.2 (fun t ht => hstk t (by simp [ht])) hst1
    have hy : YardAt m1 out1 stk1 := hy
    have hnodup : x ∉ xs := (nodup_cons.1 (Chain.nodup (p := some x) ⟨rfl, hnext⟩)).1
    have hdis1 : ∀ y ∈ xs, y ∉ out1 ++ stk1 := by
      intro y hyxs hin
      rcases hmem y hin with hin | rfl
      · exact hdis y (by simp [hyxs]) hin
      · exact hnodup hyxs
    have hplain1 : ∀ t ∈ out1 ++ stk1, (m.tok t).id.Plain := by
      intro t hin
      rcases hmem t hin with hin | rfl
      · exact hstk t hin
      · exact hx.2
    have htok := hr.tok_eq
    have hkind : m1.kind = m.kind ∧ m1.pred = m.pred := by
      constructor <;> funext a <;> simp only [Mach.kind, Mach.pred, htok]
    obtain ⟨m2, hm2, hr2, hy2⟩ := ih (m := m1) (n := n) hy (by rwa [hr.infixnext_eq]) hdis1
      (by simpa [htok] using fun y hy => ht y (by simp [hy])) (by rwa [htok]) (by omega) (by omega)
      (by rwa [hkind.1, hkind.2])
    exact ⟨m2, by simp [pushInfix, hm1, hr.infixnext_eq, hm2], hr.trans hr2, hy2⟩

theorem flushStack_spec (h : YardAt m out stk) (hbr : ∀ t ∈ stk, (m.tok t).id ≠ .brOpen) (hfuel : stk.length < fuel) :
    ∃ m', flushStack fuel m = some m' ∧ Relinks m m' ∧ YardAt m' (out ++ stk) [] := by
  induction stk generalizing m out fuel with
  | nil =>
    obtain ⟨fuel, rfl⟩ := Nat.exists_eq_add_of_lt hfuel
    have htop : m.stacktop = none := h.stack
    exact ⟨m, by simp [flushStack, poptok, htop], .refl m, by simpa using h⟩
  | cons tk stk ih =>
    obtain ⟨fuel, rfl⟩ : ∃ k, fuel = k + 1 := ⟨fuel - 1, by omega⟩
    have hid := hbr tk (by simp)
    obtain ⟨m1, hm1, hy, hr⟩ := popToPre_spec h hid
    obtain ⟨m2, hm2, hr2, hy2⟩ := ih hy (fun t ht => by rw [hr.tok_eq]; exact hbr t (by simp [ht]))
      (by simpa using hfuel)
    refine ⟨m2, ?_, hr.trans hr2, by simpa using hy2⟩
    have hstep : flushStack (fuel + 1) m = (popToPre m).bind (flushStack fuel) := by
      simp only [flushStack, poptok, popToPre, h.stack.1, if_pos hid, insertPre, update_idem]
    rw [hstep, hm1, Option.bind_some, hm2]

/-- The postfix list of a compiled expression is `xs`, and its stack is empty. -/
structure Compiled (m : Mach F) (xs : List ℕ) : Prop where
  save : Chain m.next m.saveprefixfirst xs
  last : xs ≠ [] → m.prefixlast = xs.getLast?
  stack : m.stacktop = none

theorem compile_spec {e : Expr ℕ} (hfirst : m.prefixfirst = none) (hstack : m.stacktop = none)
    (hxs : Chain m.infixnext m.infixfirst e.toks) (ht : ∀ x ∈ e.toks, (m.tok x).FromTable ∧ (m.tok x).id.Plain)
    (he : e.Shaped m.kind) (hr : e.Respects m.pred) (hfuel : e.toks.length < fuel) :
    ∃ m', compile fuel m = some (true, m') ∧ Relinks m m' ∧ Compiled m' e.post := by
  have hblocked : Blocked m.kind m.pred e [] := by simp [Blocked]
  have hstart : YardAt m [] [] := ⟨hfirst, by simp, hstack, by simp⟩
  obtain ⟨as, bs, hyard, hpost, hpend⟩ := yard_expr [] he hr hblocked
  simp only [nil_append, append_nil] at hyard
  obtain ⟨m1, hm1, hr1, hy1⟩ := pushInfix_spec hstart hxs (by simp) ht (by simp) (by simpa using hfuel) hfuel hyard
  have hbs : ∀ t ∈ bs, (m1.tok t).id ≠ .brOpen := by
    intro t hin heq
    rw [hr1.tok_eq] at heq
    exact (hpend t hin).1 (kind_eq_opn_iff.2 heq)
  have hlen : bs.length < fuel := by
    have hle := e.length_post_le
    rw [← hpost, length_append] at hle
    omega
  obtain ⟨m2, hm2, hr2, hy2⟩ := flushStack_spec hy1 hbs hlen
  rw [hpost] at hy2
  exact ⟨{ m2 with saveprefixfirst := m2.prefixfirst }, by simp [compile, hm1, hm2],
    hr1.trans (hr2.trans ⟨_, _, _, _, _, rfl⟩), hy2.pre, hy2.last, hy2.stack⟩

end Mach
end Prj.Ddlus
