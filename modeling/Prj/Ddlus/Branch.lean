import Prj.Ddlus.Clause

/-! Running a block of an `if` expression whose lists, expressions and tokens are apart from it. -/
namespace Prj.Ddlus
open Prj.Base Function

/-- The text is compiled without getting stuck, in whatever session. -/
def Ext.Compiles {F : Type} (x : Ext F) (fuel : ℕ) (text : List Char) : Prop :=
  ∀ s : Sess F, ∃ p s', s.precompile x fuel text = some (p, s')

namespace Sess
variable {F : Type} {R : Region} {S : Set (List Char)} {T : Set ℕ} {a b s s' : Sess F} {e : ℕ}

/-! The region while an expression outside it is run. -/

structure Agrees (R : Region) (a b : Sess F) : Prop where
  news : b.npre = a.npre ∧ b.nexp = a.nexp ∧ b.ntok = a.ntok
  pres : b.pres = a.pres
  exps : ∀ e ∈ R.exps, b.exps e = a.exps e
  toks : ∀ t ∈ R.toks, b.tok t = a.tok t ∧ b.next t = a.next t ∧ b.prenext t = a.prenext t

theorem Agrees.closed (h : Agrees R a b) (ha : Closed R S a a) : Closed R S b b := by
  refine ⟨?_, ?_, ?_, ?_, fun e he => ?_, fun t ht => ?_, fun t ht => ?_, fun _ _ => rfl,
    fun _ _ => ⟨rfl, rfl⟩, fun _ _ => rfl⟩
  · rw [h.news.1]
    exact ha.newList
  · rw [h.news.2.1]
    exact ha.newExp
  · rw [h.news.2.2]
    exact ha.newTok
  · rw [h.pres]
    exact ha.lists
  · rw [h.exps e he]
    exact ha.exps e he
  · rw [(h.toks t ht).2.1, (h.toks t ht).2.2]
    exact ha.links t ht
  · rw [(h.toks t ht).1]
    exact ha.tame t ht

theorem Agrees.twin (h : Agrees R a b) (p : ℕ) : Twin R { a with autopre := none, pre := p } { b with pre := p } := by
  refine ⟨fun q _ => ?_, fun e he => ?_, fun t ht => (h.toks t ht).2.2, rfl⟩
  · exact congrArg (fun pres : ℕ → Pre => (pres q).expfirst) h.pres
  · rw [h.exps e he]
    exact ⟨rfl, rfl, rfl⟩

theorem Walked.agrees (h : Walked T e s s') (hs : Mach.Keeps T Set.univ (s.mach e) (s.mach e))
    (he : e ∉ R.exps) (hT : ∀ t ∈ T, t ∉ R.toks) : Agrees R s s' := by
  have htoks := (h.stays hs).2
  refine ⟨?_, ?_, fun c hc => ?_, fun t ht => htoks t fun hin => hT t hin ht⟩
  · obtain ⟨_, _, _, _, _, _, _, _, rfl⟩ := h.same
    exact ⟨rfl, rfl, rfl⟩
  · obtain ⟨_, _, _, _, _, _, _, _, rfl⟩ := h.same
    rfl
  · obtain ⟨_, _, _, _, _, _, _, _, rfl⟩ := h.same
    exact update_of_ne (ne_of_mem_of_not_mem hc he) _ _

/-! Running one block. -/

theorem src_precompile {x : Ext F} {fuel p : ℕ} {text : List Char}
    (h : s.precompile x fuel text = some (p, s')) : (s'.pres p).src = text := by
  obtain ⟨s1, hs1, heq⟩ := Option.map_eq_some_iff.1 h
  cases heq
  have hind : s1.pre = s.npre ∧ (s1.pres s.npre).src = text := by
    refine prefixExps_ind (Q := fun a => a.pre = s.npre ∧ (a.pres s.npre).src = text) ?_
      (fun _ _ _ h => h) (fun _ _ _ h => h) ?_ hs1
    · rintro a ⟨hpre, hsrc⟩
      simp [newExp, hpre, hsrc]
    · simp
  exact hind.2

variable [Fnum F] {x : Ext F} {fuel n block : ℕ} {text : List Char}

/-- `RESTORE(1)` in `_run_if`. -/
def leave (s : Sess F) (e : ℕ) (s' : Sess F) : Sess F :=
  ({ s' with depth := s.depth, autorun := s.autorun, autopre := s.autopre, pre := s.pre }.setCur
    (some e)).setIfcond e (s.exps e).ifcond

/-- The block can be started: its text does not jump and compiles, or the branch that exists already
was compiled from it and can be restored. -/
def Startable (x : Ext F) (R : Region) (S : Set (List Char)) (fuel : ℕ) (s : Sess F) (e : ℕ)
    (text : List Char) : Prop :=
  match (s.exps e).branch with
  | none => text ∈ S ∧ x.Compiles fuel text
  | some p => p ∈ R.lists ∧ (s.pres p).src = text ∧
      ∃ s', restorePrefix fuel { s with autopre := none, pre := p } = some s'

/-- What a block of expression `e` leaves to it. -/
structure Back (R : Region) (e : ℕ) (s s' : Sess F) : Prop where
  cur : s'.cur = some e
  first : (s'.exps e).prefixfirst = (s.exps e).prefixfirst
  top : (s'.exps e).stacktop = (s.exps e).stacktop
  ifcond : (s'.exps e).ifcond = (s.exps e).ifcond
  toks : ∀ t ∉ R.toks, s'.tok t = s.tok t ∧ s'.next t = s.next t

structure Prepared (R : Region) (S : Set (List Char)) (e : ℕ) (text : List Char) (s s' : Sess F) : Prop where
  keeps : Keeps R S s' s'
  src : (s'.pres s'.pre).src = text
  blocks : blocksOf e s'.log = blocksOf e s.log
  first : (s'.exps e).prefixfirst = (s.exps e).prefixfirst
  top : (s'.exps e).stacktop = (s.exps e).stacktop
  toks : ∀ t ∉ R.toks, s'.tok t = s.tok t ∧ s'.next t = s.next t

theorem exists_prepared (block : ℕ) (hS : x.Tame S) (ha : Closed R S a a) (hab : Agrees R a s)
    (he : e ∉ R.exps) (hauto : s.autopre = none) (hbranch : (s.exps e).branch = (a.exps e).branch)
    (hblock : (s.tok block).str = text) (hstart : Startable x R S fuel a e text) : ∃ s', (match (s.exps e).branch with
      | none => (s.precompile x fuel (s.tok block).str).map fun (p, s') =>
          { s'.setBranch e p with pre := p }
      | some p => restorePrefix fuel { s with pre := p }) = some s' ∧ Prepared R S e text s s' := by
  have hs : Closed R S s s := hab.closed ha
  have hnone : PtrIn R.lists s.autopre := by simp [hauto]
  unfold Startable at hstart
  rw [hbranch]
  cases hp : (a.exps e).branch with
  | none =>
    rw [hp] at hstart
    obtain ⟨p, s1, hs1⟩ := hstart.2 s
    obtain ⟨h1, hmem, hauto1⟩ := hs.precompile hS hnone hstart.1 hs1
    refine ⟨{ s1.setBranch e p with pre := p }, by simp [hblock, hs1], ?_⟩
    have hexp := h1.exps_eq e he
    constructor
    · exact ⟨.self (.congr (h1.setOutside he { s1.exps e with branch := some p }) rfl), hmem, hauto1⟩
    · have hsrc := src_precompile hs1
      exact hsrc
    · exact h1.blocks e he
    · simp [setBranch, hexp]
    · simp [setBranch, hexp]
    · exact h1.toks_eq
  | some p =>
    rw [hp] at hstart
    obtain ⟨hmem, hsrc, a', ha'⟩ := hstart
    have hka : Keeps R S a { a with autopre := none, pre := p } :=
      ⟨ha.congr rfl, hmem, ptrIn_none⟩
    obtain ⟨s1, hs1⟩ := exists_restorePrefix hka (hab.twin p) ha'
    have hks : Keeps R S s { s with pre := p } := ⟨hs.congr rfl, hmem, hnone⟩
    have h1 := hks.restorePrefix hs1
    refine ⟨s1, hs1, ⟨h1.self, h1.pre, h1.auto⟩, ?_, h1.blocks e he, ?_, ?_, h1.toks_eq⟩
    · obtain ⟨_, _, _, _, rfl⟩ := resets_restorePrefix hs1
      exact (congrArg (fun pres : ℕ → Pre => (pres p).src) hab.pres).trans hsrc
    all_goals rw [h1.exps_eq e he]

theorem exists_runBranch (cond : IfCond) (n : ℕ) (hS : x.Tame S) (hx : x.Local)
    (ha : Closed R S a a) (hab : Agrees R a s) (he : e ∉ R.exps)
    (hbranch : (s.exps e).branch = (a.exps e).branch) (hblock : (s.tok block).str = text)
    (hstart : Startable x R S fuel a e text) : ∃ s', blocksOf e s'.log = blocksOf e s.log ++ [text] ∧
      (s.runBranch x (runCi x n) fuel e block cond = (none, s') ∨
        s.runBranch x (runCi x n) fuel e block cond = (some true, s') ∧ Back R e s s') := by
  obtain ⟨ready, hready⟩ :
      ∃ ready, ({ s with autorun := .notdef, autopre := none }.setIfcond e cond : Sess F) = ready :=
    ⟨_, rfl⟩
  have hexp : ∀ c ≠ e, ready.exps c = s.exps c := fun c hce => by
    rw [← hready]
    exact update_of_ne hce _ _
  have hself : ready.exps e = { s.exps e with ifcond := cond } := by
    rw [← hready]
    exact update_self _ _ _
  have har : Agrees R a ready := by
    refine ⟨hready ▸ hab.news, hready ▸ hab.pres, fun c hc => ?_, hready ▸ hab.toks⟩
    have hce : c ≠ e := fun heq => he (heq ▸ hc)
    rw [hexp c hce]
    exact hab.exps c hc
  obtain ⟨s1, hs1, h1⟩ := exists_prepared block hS ha har he (hready ▸ rfl)
    (by rw [hself]; exact hbranch) (hready ▸ hblock) hstart
  obtain ⟨s2, hs2⟩ : ∃ s2, ({ s1 with depth := s.depth + 1 }.record (.block s.depth e text) : Sess F) = s2 := ⟨_, rfl⟩
  have hrun : s.runBranch x (runCi x n) fuel e block cond =
      (runCi x n s2).bind fun _ s3 => (some true, s.leave e s3) := by
    rw [← hs2, ← h1.src]
    subst hready
    exact congrArg (fun r => (Res.lift _ r).bind fun _ s1 =>
      (runCi x n ({ s1 with depth := s.depth + 1 }.record
        (.block s.depth e (s1.pres s1.pre).src))).bind fun _ s3 => (some true, s.leave e s3)) hs1
  have h2 : Keeps R S s2 s2 := by
    have hself := h1.keeps.self
    exact hs2 ▸ ⟨.self ⟨hself.newList, hself.newExp, hself.newTok, hself.lists, hself.exps, hself.links,
      hself.tame, fun _ _ => rfl, fun _ _ => ⟨rfl, rfl⟩, fun _ _ => rfl⟩, h1.keeps.pre, h1.keeps.auto⟩
  have h3 := h2.runCi hS hx n
  have hlog : blocksOf e (runCi x n s2).2.log = blocksOf e s.log ++ [text] := by
    have hcons : blocksOf e s2.log = blocksOf e s1.log ++ [text] := by
      rw [← hs2]
      exact (blocksOf_cons _ _).trans (by simp [Event.blockOf])
    rw [h3.blocks e he, hcons, h1.blocks, ← hready]
    rfl
  revert hrun h3 hlog
  rcases runCi x n s2 with ⟨_ | b, s3⟩
  · intro hrun _ hlog
    exact ⟨s3, hlog, .inl hrun⟩
  · intro hrun h3 hlog
    refine ⟨s.leave e s3, hlog, .inr ⟨hrun, ?_⟩⟩
    have hexp3 : s3.exps e = s1.exps e := (h3.exps_eq e he).trans (hs2 ▸ rfl)
    constructor
    · exact cur_setCur _ _
    · simp [leave, setIfcond, setCur, hexp3, h1.first, hself]
    · simp [leave, setIfcond, setCur, hexp3, h1.top, hself]
    · simp [leave, setIfcond]
    · intro t ht
      have h₃t := h3.toks_eq t ht
      have h₁t := h1.toks t ht
      rw [← hs2] at h₃t
      rw [← hready] at h₁t
      exact ⟨h₃t.1.trans h₁t.1, h₃t.2.trans h₁t.2⟩

end Sess
end Prj.Ddlus
