import Prj.Ddlus.Flow
import Prj.Ddlus.Reach

/-! Lists, expressions and tokens that are apart from the rest of a session, and what compiling and
restoring do to them. -/
namespace Prj.Ddlus
open Prj.Base Function Option

structure Region where
  lists : Set ℕ
  exps : Set ℕ
  toks : Set ℕ

/-- No expression of a text in `S` jumps, and neither do the blocks in it. -/
def Ext.Tame {F : Type} (x : Ext F) (S : Set (List Char)) : Prop :=
  ∀ text ∈ S, ∀ ts, some ts ∈ x.expressions text → ∀ t ∈ ts, t.id ≠ .goto ∧ t.str ∈ S

structure Exp.In (R : Region) (a : Exp) : Prop where
  first : PtrIn R.toks a.prefixfirst
  last : PtrIn R.toks a.prefixlast
  save : PtrIn R.toks a.saveprefixfirst
  top : PtrIn R.toks a.stacktop
  next : PtrIn R.exps a.next
  branch : PtrIn R.lists a.branch

structure Pre.In (R : Region) (l : Pre) : Prop where
  first : PtrIn R.exps l.expfirst
  last : PtrIn R.exps l.explast
  cur : PtrIn R.exps l.exp

/-- The text, if the event is the start of a block of expression `e`. -/
def Event.blockOf (e : ℕ) : Event → Option (List Char)
  | .block _ a src => if a = e then some src else none
  | _ => none

namespace Sess
variable {F : Type} {R : Region} {S : Set (List Char)} {s₀ s s' : Sess F} {e p n : ℕ} {c : Option ℕ} {m : Mach F}
  {fuel : ℕ}

/-- The blocks of expression `e` that were run, in order. -/
def blocksOf (e : ℕ) (log : List Event) : List (List Char) :=
  log.reverse.filterMap (Event.blockOf e)

theorem blocksOf_cons (ev : Event) (log : List Event) :
    blocksOf e (ev :: log) = blocksOf e log ++ (ev.blockOf e).toList := by
  cases h : ev.blockOf e <;> simp [blocksOf, h]

/-- What is in the region points into it, and it does not jump. What is not in use yet belongs to it,
and what is outside is as it was in `s₀`. -/
structure Closed (R : Region) (S : Set (List Char)) (s₀ s : Sess F) : Prop where
  newList : ∀ p, s.npre ≤ p → p ∈ R.lists
  newExp : ∀ e, s.nexp ≤ e → e ∈ R.exps
  newTok : ∀ t, s.ntok ≤ t → t ∈ R.toks
  lists : ∀ p ∈ R.lists, (s.pres p).In R
  exps : ∀ e ∈ R.exps, (s.exps e).In R
  links : ∀ t ∈ R.toks, PtrIn R.toks (s.next t) ∧ PtrIn R.toks (s.prenext t)
  tame : ∀ t ∈ R.toks, (s.tok t).id ≠ .goto ∧ (s.tok t).str ∈ S
  exps_eq : ∀ e ∉ R.exps, s.exps e = s₀.exps e
  toks_eq : ∀ t ∉ R.toks, s.tok t = s₀.tok t ∧ s.next t = s₀.next t
  blocks : ∀ e ∉ R.exps, blocksOf e s.log = blocksOf e s₀.log

/-- The current list and the one that is run after it are in the region. -/
structure Keeps (R : Region) (S : Set (List Char)) (s₀ s : Sess F) : Prop extends Closed R S s₀ s where
  pre : s.pre ∈ R.lists
  auto : PtrIn R.lists s.autopre

/-- All that `Closed` is about. -/
def heap (s : Sess F) : (ℕ → Tok F) × (ℕ → Option ℕ) × (ℕ → Option ℕ) × (ℕ → Exp) × (ℕ → Pre) ×
    ℕ × ℕ × ℕ × List Event :=
  (s.tok, s.next, s.prenext, s.exps, s.pres, s.ntok, s.nexp, s.npre, s.log)

namespace Closed

section
variable (h : Closed R S s₀ s)
include h

theorem congr (hs : s'.heap = s.heap) : Closed R S s₀ s' := by
  simp only [heap, Prod.mk.injEq] at hs
  obtain ⟨htok, hnext, hprenext, hexps, hpres, hntok, hnexp, hnpre, hlog⟩ := hs
  constructor
  · rw [hnpre]; exact h.newList
  · rw [hnexp]; exact h.newExp
  · rw [hntok]; exact h.newTok
  · rw [hpres]; exact h.lists
  · rw [hexps]; exact h.exps
  · rw [hnext, hprenext]; exact h.links
  · rw [htok]; exact h.tame
  · rw [hexps]; exact h.exps_eq
  · rw [htok, hnext]; exact h.toks_eq
  · rw [hlog]; exact h.blocks

theorem self : Closed R S s s :=
  ⟨h.newList, h.newExp, h.newTok, h.lists, h.exps, h.links, h.tame, fun _ _ => rfl,
    fun _ _ => ⟨rfl, rfl⟩, fun _ _ => rfl⟩

theorem setExp {a : Exp} (he : e ∈ R.exps) (ha : a.In R) : Closed R S s₀ { s with exps := update s.exps e a } := by
  refine { h with exps := forall_mem_update h.exps ha, exps_eq := fun c hc => ?_ }
  exact (update_of_ne (ne_of_mem_of_not_mem he hc).symm _ _).trans (h.exps_eq c hc)

theorem setOutside (he : e ∉ R.exps) (a : Exp) :
    Closed R S { s with exps := update s.exps e a } { s with exps := update s.exps e a } := by
  refine ⟨h.newList, h.newExp, h.newTok, h.lists, fun c hc => ?_, h.links, h.tame,
    fun _ _ => rfl, fun _ _ => ⟨rfl, rfl⟩, fun _ _ => rfl⟩
  simpa [update_of_ne (ne_of_mem_of_not_mem hc he)] using h.exps c hc

theorem setList {l : Pre} (p : ℕ) (hl : l.In R) : Closed R S s₀ { s with pres := update s.pres p l } :=
  { h with lists := forall_mem_update h.lists hl }

theorem setIfcond (he : e ∈ R.exps) (c : IfCond) : Closed R S s₀ (s.setIfcond e c) :=
  have ha := h.exps e he
  h.setExp he { ha with }

theorem setBranch (he : e ∈ R.exps) (hp : p ∈ R.lists) : Closed R S s₀ (s.setBranch e p) :=
  have ha := h.exps e he
  h.setExp he { ha with branch := by simpa using hp }

theorem record (ev : Event) (hev : ∀ e ∉ R.exps, ev.blockOf e = none) : Closed R S s₀ (s.record ev) := by
  refine { h with blocks := fun c hc => ?_ }
  have hcons : blocksOf c (s.record ev).log = blocksOf c s.log ++ (ev.blockOf c).toList :=
    blocksOf_cons ev s.log
  rw [hcons, hev c hc]
  simpa using h.blocks c hc

theorem mach (he : e ∈ R.exps) : Mach.Keeps R.toks S (s.mach e) (s.mach e) :=
  have ha := h.exps e he
  ⟨ha.first, ha.last, ha.save, ha.top, fun t ht => (h.links t ht).1, h.tame, fun _ _ => rfl, fun _ _ => rfl, rfl, rfl⟩

theorem put (he : e ∈ R.exps) (hm : Mach.Keeps R.toks S (s.mach e) m) : Closed R S s₀ (s.put e m) := by
  have ha := h.exps e he
  have hprenext : m.prenext = s.prenext := hm.prenext_eq
  have htoks : Closed R S s₀ { s with
      tok := m.tok, next := m.next, prenext := m.prenext, infixnext := m.infixnext } := by
    refine { h with links := fun t ht => ?_, tame := hm.tame, toks_eq := fun t ht => ?_ }
    · exact ⟨hm.next t ht, by simpa only [hprenext] using (h.links t ht).2⟩
    · exact ⟨(hm.tok_eq t ht).trans (h.toks_eq t ht).1, (hm.next_eq t ht).trans (h.toks_eq t ht).2⟩
  exact (htoks.setExp (a := { s.exps e with
    infixfirst := m.infixfirst, prefixfirst := m.prefixfirst, prefixlast := m.prefixlast
    saveprefixfirst := m.saveprefixfirst, stacktop := m.stacktop }) he
    ⟨hm.first, hm.last, hm.save, hm.top, ha.next, ha.branch⟩).congr rfl

theorem addInfix {ts : List (Tok F)} (he : e ∈ R.exps)
    (hts : ∀ t ∈ ts, t.id ≠ .goto ∧ t.str ∈ S) : Closed R S s₀ (s.addInfix e ts) := by
  have ha := h.exps e he
  have htoks : Closed R S s₀ { s with
      ntok := s.ntok + ts.length
      tok := fun a => if s.ntok ≤ a then ts.getD (a - s.ntok) (s.tok a) else s.tok a } := by
    refine { h with
      newTok := fun t ht => h.newTok t (by simp only at ht; omega), tame := fun t ht => ?_, toks_eq := fun t ht => ?_ }
    · dsimp only
      split_ifs
      · rw [List.getD_eq_getElem?_getD]
        cases hk : ts[t - s.ntok]? with
        | none => exact h.tame t ht
        | some k => exact hts k (List.mem_of_getElem? hk)
      · exact h.tame t ht
    · have hlt : ¬ s.ntok ≤ t := fun hle => ht (h.newTok t hle)
      simpa [hlt] using h.toks_eq t ht
  exact (htoks.setExp (a := { s.exps e with infixfirst := if ts = [] then none else some s.ntok }) he
    { ha with }).congr rfl

end
end Closed

namespace Keeps

section
variable (h : Keeps R S s₀ s)
include h

theorem congr (hs : s'.heap = s.heap) (hpre : s'.pre ∈ R.lists) (hauto : s'.autopre = s.autopre) : Keeps R S s₀ s' :=
  ⟨h.toClosed.congr hs, hpre, by rw [hauto]; exact h.auto⟩

theorem mem_cur (hcur : s.cur = some e) : e ∈ R.exps :=
  (h.lists _ h.pre).cur e hcur

theorem setPre (hp : p ∈ R.lists) : Keeps R S s₀ { s with pre := p } :=
  h.congr rfl hp rfl

theorem setCur (hc : PtrIn R.exps c) : Keeps R S s₀ (s.setCur c) :=
  have hl := h.lists _ h.pre
  ⟨h.setList _ ⟨hl.first, hl.last, hc⟩, h.pre, h.auto⟩

theorem put (he : e ∈ R.exps) (hm : Mach.Keeps R.toks S (s.mach e) m) : Keeps R S s₀ (s.put e m) :=
  ⟨h.toClosed.put he hm, h.pre, h.auto⟩

theorem setIfcond (he : e ∈ R.exps) (c : IfCond) : Keeps R S s₀ (s.setIfcond e c) :=
  ⟨h.toClosed.setIfcond he c, h.pre, h.auto⟩

theorem print (msg : Msg) : Keeps R S s₀ (s.print msg) := h.congr rfl h.pre rfl

end

/-! Compiling and restoring. -/

/-- A blank expression at the end of the current list, once the list's last one, if any, links to
it: `exps` is the table with that link. -/
theorem appendExp {exps : ℕ → Exp} (h : Keeps R S s₀ s) (hlink : Closed R S s₀ { s with exps := exps }) :
    Keeps R S s₀ { s with
      nexp := s.nexp + 1
      exps := update exps s.nexp
        { infixfirst := none, prefixfirst := none, prefixlast := none, saveprefixfirst := none
          stacktop := none, ifcond := .noif, next := none, branch := none }
      pres := update s.pres s.pre { s.pres s.pre with
        expfirst := some ((s.pres s.pre).expfirst.getD s.nexp), explast := some s.nexp
        exp := some s.nexp } } := by
  have hnew : s.nexp ∈ R.exps := h.newExp _ le_rfl
  have hlist : Pre.In R { s.pres s.pre with
      expfirst := some ((s.pres s.pre).expfirst.getD s.nexp), explast := some s.nexp
      exp := some s.nexp } := by
    refine ⟨?_, by simpa using hnew, by simpa using hnew⟩
    cases hfirst : (s.pres s.pre).expfirst with
    | none => simpa using hnew
    | some a => simpa using (h.lists _ h.pre).first a hfirst
  have hexp : Exp.In R { infixfirst := none, prefixfirst := none, prefixlast := none
                         saveprefixfirst := none, stacktop := none, ifcond := .noif, next := none
                         branch := none } :=
    ⟨by simp, by simp, by simp, by simp, by simp, by simp⟩
  have hfresh := (hlink.setExp hnew hexp).setList s.pre hlist
  exact ⟨{ hfresh with newExp := fun a ha => h.newExp a (Nat.le_of_succ_le ha) }, h.pre, h.auto⟩

theorem openExp (h : Keeps R S s₀ s) : Keeps R S s₀ s.newExp := by
  refine h.appendExp ?_
  split
  next last _ hlast =>
    have hmem := (h.lists _ h.pre).last last hlast
    have ha := h.exps last hmem
    exact h.setExp hmem { ha with next := by simpa using h.newExp _ le_rfl }
  · exact h.toClosed.congr rfl

theorem prefixExps {es : List (Option (List (Tok F)))} (h : Keeps R S s₀ s)
    (hes : ∀ ts, some ts ∈ es → ∀ t ∈ ts, t.id ≠ .goto ∧ t.str ∈ S)
    (hs : Sess.prefixExps fuel es s = some s') : Keeps R S s₀ s' := by
  induction es generalizing s with
  | nil => exact some.inj hs ▸ h
  | cons ts es ih =>
    cases ts with
    | none => exact some.inj hs ▸ h.openExp
    | some ts =>
      have hnew : s.nexp ∈ R.exps := h.newExp _ le_rfl
      have hadd : Keeps R S s₀ (s.newExp.addInfix s.nexp ts) :=
        ⟨h.openExp.toClosed.addInfix hnew (hes ts (by simp)), h.pre, h.auto⟩
      -- the infix list is made of the tokens just added
      have hcompile : ∀ r, ((s.newExp.addInfix s.nexp ts).mach s.nexp).compile fuel = some r →
          Mach.Keeps R.toks S ((s.newExp.addInfix s.nexp ts).mach s.nexp) r.2 := by
        intro r hr
        refine (hadd.mach hnew).compile (U := { t | s.ntok ≤ t }) (fun t ht => h.newTok t ht) ?_ ?_ hr
        · intro t ht
          have hle : s.newExp.ntok ≤ t := ht
          change PtrIn _ (if s.newExp.ntok ≤ t then
            (if t + 1 < s.newExp.ntok + ts.length then some (t + 1) else none) else _)
          split_ifs
          · exact ptrIn_some.2 (Nat.le_succ_of_le ht)
          · exact ptrIn_none
        · have hfirst : ((s.newExp.addInfix s.nexp ts).mach s.nexp).infixfirst =
              if ts = [] then none else some s.ntok := by
            simp [Sess.mach, Sess.addInfix, Sess.newExp]
          rw [hfirst]
          split_ifs
          · exact ptrIn_none
          · exact ptrIn_some.2 (le_refl s.ntok)
      rw [Sess.prefixExps] at hs
      split at hs
      · cases hs
      next m hm => exact ih (hadd.put hnew (hcompile _ hm)) (fun ts hts => hes ts (by simp [hts])) hs
      next m hm => exact some.inj hs ▸ hadd.put hnew (hcompile _ hm)

end Keeps

theorem Closed.precompile {x : Ext F} {text : List Char} (hS : x.Tame S)
    (h : Closed R S s₀ s) (hauto : PtrIn R.lists s.autopre) (htext : text ∈ S)
    (hs : s.precompile x fuel text = some (p, s')) : Closed R S s₀ s' ∧ p ∈ R.lists ∧ PtrIn R.lists s'.autopre := by
  obtain ⟨s1, hs1, heq⟩ := map_eq_some_iff.1 hs
  cases heq
  have hp : s.npre ∈ R.lists := h.newList _ le_rfl
  have hlist := h.setList (l := { expfirst := none, explast := none, exp := none, src := text }) s.npre
    ⟨by simp, by simp, by simp⟩
  have hnew : Keeps R S s₀ { s with
      npre := s.npre + 1, pre := s.npre
      pres := update s.pres s.npre { expfirst := none, explast := none, exp := none, src := text } } :=
    ⟨{ hlist with newList := fun q hq => h.newList q (Nat.le_of_succ_le hq) }, hp, hauto⟩
  have h1 := hnew.prefixExps (hS text htext) hs1
  exact ⟨h1.toClosed.congr rfl, hp, h1.auto⟩

namespace Keeps
variable [Fnum F]

theorem restoreExps {rec : Sess F → Option (Sess F)}
    (hrec : ∀ {a b}, Keeps R S s₀ a → rec a = some b → Keeps R S s₀ b) (h : Keeps R S s₀ s)
    (hc : PtrIn R.exps c) (hs : Sess.restoreExps rec fuel n c s = some s') : Keeps R S s₀ s' := by
  induction n generalizing c s with
  | zero => cases hs
  | succ n ih =>
    cases c with
    | none => exact some.inj hs ▸ h.setCur ptrIn_none
    | some e =>
      have he : e ∈ R.exps := by simpa using hc
      have hcur := h.setCur hc
      obtain ⟨s2, hs2, hrest⟩ := bind_eq_some_iff.1 hs
      obtain ⟨m, hm, hbranch⟩ := bind_eq_some_iff.1 hs2
      have hput := hcur.put he ((hcur.mach he).restoreExp (fun t ht => (hcur.links t ht).2) hm)
      have h2 : Keeps R S s₀ s2 := by
        dsimp only at hbranch
        split at hbranch
        · exact some.inj hbranch ▸ hput
        next b hb =>
          obtain ⟨s3, hs3, rfl⟩ := map_eq_some_iff.1 hbranch
          exact (hrec (hput.setPre ((hput.exps e he).branch b hb)) hs3).setPre h.pre
      exact ih h2 (h2.exps e he).next hrest

theorem restorePrefix (h : Keeps R S s₀ s) (hs : Sess.restorePrefix n s = some s') : Keeps R S s₀ s' := by
  induction n generalizing s s' with
  | zero => cases hs
  | succ n ih =>
    rw [Sess.restorePrefix] at hs
    split at hs
    · exact some.inj hs ▸ h
    next e he =>
      exact h.restoreExps ih (by simpa using (h.lists _ h.pre).first e he) hs

end Keeps

/-! What `restore_prefix` follows in the region. -/

/-- The same lists, expressions and orders of tokens, as far as they are in the region. -/
structure Twin (R : Region) (a b : Sess F) : Prop where
  first : ∀ p ∈ R.lists, (b.pres p).expfirst = (a.pres p).expfirst
  exps : ∀ e ∈ R.exps, (b.exps e).next = (a.exps e).next ∧
    (b.exps e).branch = (a.exps e).branch ∧ (b.exps e).saveprefixfirst = (a.exps e).saveprefixfirst
  prenext : ∀ t ∈ R.toks, b.prenext t = a.prenext t
  pre : b.pre = a.pre

section
variable {a a' b b' : Sess F} {fuel n k : ℕ} {c : Option ℕ}

theorem Twin.resets (h : Twin R a b) (ha : Resets a a') (hb : Resets b b') : Twin R a' b' := by
  obtain ⟨_, _, _, _, rfl⟩ := ha
  obtain ⟨_, _, _, _, rfl⟩ := hb
  exact ⟨h.first, h.exps, h.prenext, h.pre⟩

variable [Fnum F]

theorem exists_restoreWalk {T : Set ℕ} {m' u : Mach F} (hT : ∀ t ∈ T, PtrIn T (m.prenext t))
    (hu : ∀ t ∈ T, u.prenext t = m.prenext t) (hc : PtrIn T c)
    (h : Mach.restoreWalk fuel c m = some m') : ∃ u', Mach.restoreWalk fuel c u = some u' := by
  induction fuel generalizing c m u with
  | zero => cases h
  | succ fuel ih =>
    cases c with
    | none => exact ⟨u, rfl⟩
    | some ent =>
      have hent : ent ∈ T := by simpa using hc
      rw [Mach.restoreWalk] at h ⊢
      rw [hu ent hent]
      exact ih (by exact hT) (by exact hu) (hT ent hent) h

section
variable (hrec : ∀ {a a' b}, Keeps R S s₀ a → Twin R a b → restorePrefix k a = some a' →
  ∃ b', restorePrefix k b = some b')
include hrec

theorem exists_restoreBranch (h : Keeps R S s₀ a) (ht : Twin R a b) (he : e ∈ R.exps)
    (ha : (match (a.exps e).branch with
      | none => some a
      | some p => (restorePrefix k { a with pre := p }).map fun s' => { s' with pre := a.pre }) =
        some a') :
    Keeps R S s₀ a' ∧ ∃ b', (match (b.exps e).branch with
      | none => some b
      | some p => (restorePrefix k { b with pre := p }).map fun s' => { s' with pre := b.pre }) =
        some b' ∧ Twin R a' b' := by
  rw [(ht.exps e he).2.1]
  cases hp : (a.exps e).branch with
  | none =>
    rw [hp] at ha
    cases ha
    exact ⟨h, b, rfl, ht⟩
  | some p =>
    rw [hp] at ha
    obtain ⟨a1, ha1, rfl⟩ := map_eq_some_iff.1 ha
    have hpre := h.setPre ((h.exps e he).branch p hp)
    have htp : Twin R { a with pre := p } { b with pre := p } :=
      ⟨ht.first, ht.exps, ht.prenext, rfl⟩
    obtain ⟨b1, hb1⟩ := hrec hpre htp ha1
    have ht1 := htp.resets (resets_restorePrefix ha1) (resets_restorePrefix hb1)
    refine ⟨(hpre.restorePrefix ha1).setPre h.pre, { b1 with pre := b.pre }, ?_,
      ⟨ht1.first, ht1.exps, ht1.prenext, ht.pre⟩⟩
    dsimp only
    rw [hb1]
    rfl

theorem exists_restoreExps (h : Keeps R S s₀ a) (ht : Twin R a b) (hc : PtrIn R.exps c)
    (ha : restoreExps (restorePrefix k) fuel n c a = some a') :
    ∃ b', restoreExps (restorePrefix k) fuel n c b = some b' := by
  induction n generalizing a b c with
  | zero => cases ha
  | succ n ih =>
    cases c with
    | none => exact ⟨b.setCur none, rfl⟩
    | some e =>
      have he : e ∈ R.exps := by simpa using hc
      have hcur := h.setCur hc
      obtain ⟨a2, ha2, hrest⟩ := bind_eq_some_iff.1 ha
      obtain ⟨m, hm, hbranch⟩ := bind_eq_some_iff.1 ha2
      have hput := hcur.put he ((hcur.mach he).restoreExp (fun t ht => (hcur.links t ht).2) hm)
      -- both walk over the tokens of `e`
      obtain ⟨u, hu⟩ : ∃ u, ((b.setCur (some e)).mach e).restoreExp fuel = some u := by
        have hsave : ((b.setCur (some e)).mach e).saveprefixfirst =
          ((a.setCur (some e)).mach e).saveprefixfirst := (ht.exps e he).2.2
        rw [Mach.restoreExp, hsave]
        exact exists_restoreWalk (T := R.toks) (fun t ht => (h.links t ht).2) (by exact ht.prenext)
          (h.exps e he).save hm
      have ht1 : Twin R ((a.setCur (some e)).put e m) ((b.setCur (some e)).put e u) := by
        obtain ⟨_, _, rfl⟩ := restoreWalk_eq hm
        obtain ⟨_, _, rfl⟩ := restoreWalk_eq hu
        exact (ht.resets (resets_setCur a _) (resets_setCur b _)).resets (resets_put _ _ _ _ _) (resets_put _ _ _ _ _)
      obtain ⟨h2, b2, hb2, ht2⟩ := exists_restoreBranch hrec hput ht1 he hbranch
      obtain ⟨b', hb'⟩ := ih h2 ht2 (h2.exps e he).next hrest
      refine ⟨b', ?_⟩
      rw [← (ht2.exps e he).1] at hb'
      simp only [restoreExps, hu, bind_some]
      exact bind_eq_some_iff.2 ⟨b2, hb2, hb'⟩

end

theorem exists_restorePrefix (h : Keeps R S s₀ a) (ht : Twin R a b)
    (ha : restorePrefix n a = some a') : ∃ b', restorePrefix n b = some b' := by
  induction n generalizing a b a' with
  | zero => cases ha
  | succ n ih =>
    have hfirst : (b.pres b.pre).expfirst = (a.pres a.pre).expfirst := by
      rw [ht.pre]
      exact ht.first _ h.pre
    rw [restorePrefix] at ha ⊢
    rw [hfirst]
    split at ha
    · exact ⟨b, rfl⟩
    next e he =>
      exact exists_restoreExps ih h ht (by simpa using (h.lists _ h.pre).first e he) ha

end
end Sess
end Prj.Ddlus
