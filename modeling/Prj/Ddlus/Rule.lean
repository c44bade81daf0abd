import Prj.Ddlus.Flow

/-! What holds at every point of a run, by what each kind of event does to it, and where `goto` goes on. -/
namespace Prj.Ddlus
open Prj.Base Function

namespace Sess
variable {F α : Type} {n fuel p d : ℕ} {x : Ext F}

structure Quiet (s s' : Sess F) : Prop where
  log : s'.log = s.log
  labels : s'.labels = s.labels
  depth : s'.depth = s.depth

namespace Quiet
variable {s s' s'' : Sess F}

theorem trans (h : Quiet s s') (h' : Quiet s' s'') : Quiet s s'' :=
  ⟨h'.log.trans h.log, h'.labels.trans h.labels, h'.depth.trans h.depth⟩

theorem put (e : ℕ) (m : Mach F) : Quiet s (s.put e m) := ⟨rfl, rfl, rfl⟩

theorem setCur (e : Option ℕ) : Quiet s (s.setCur e) := ⟨rfl, rfl, rfl⟩

theorem print (msg : Msg) : Quiet s (s.print msg) := ⟨rfl, rfl, rfl⟩

theorem prefixExps {es : List (Option (List (Tok F)))} (h : Sess.prefixExps fuel es s = some s') : Quiet s s' :=
  prefixExps_ind (fun _ hq => hq.trans ⟨rfl, rfl, rfl⟩) (fun _ _ _ hq => hq.trans ⟨rfl, rfl, rfl⟩)
    (fun _ _ _ hq => hq.trans (put _ _)) ⟨rfl, rfl, rfl⟩ h

theorem precompile {text : List Char} (h : s.precompile x fuel text = some (p, s')) : Quiet s s' := by
  obtain ⟨s1, hs1, heq⟩ := Option.map_eq_some_iff.mp h
  cases heq
  have hrun := prefixExps hs1
  exact ⟨hrun.log, hrun.labels, hrun.depth⟩

variable [Fnum F]

theorem restorePrefix (h : Sess.restorePrefix n s = some s') : Quiet s s' := by
  obtain ⟨_, _, _, _, rfl⟩ := resets_restorePrefix h
  exact ⟨rfl, rfl, rfl⟩

end Quiet

def jumpTo (s : Sess F) (l : Label) : Sess F :=
  { { s with pre := l.pre }.setCur l.nextexp with goto := true }.record
    (.goto l.name l.nextexp (l.nextexp.bind fun e => (s.exps e).prefixfirst))

/-- `I d` holds between tokens at depth `d`, `J d` after a token, and `K` when a run is stuck. -/
structure RunRule (I J : ℕ → Sess F → Prop) (K : Sess F → Prop) : Prop where
  quiet : ∀ {d s s'}, I d s → Quiet s s' → I d s'
  label : ∀ {d s} name e nextexp, I d s → I d ({ s with labels := s.labels ++ [Label.mk name s.pre nextexp] }.record
      (.label name e nextexp))
  jump : ∀ {d s l}, I d s → l ∈ s.labels → J d (s.jumpTo l)
  exec : ∀ {d s e ent}, J d s → s.cur = some e → (s.exps e).prefixfirst = some ent → I d (s.advance e ent)
  done : ∀ {d s e}, J d s → s.cur = some e → (s.exps e).prefixfirst = none → I d s
  next : ∀ {d s}, I d s → J d s
  stuck : ∀ {d s}, J d s → K s
  enter : ∀ {d s} e src, I d s → I (d + 1) ({ s with depth := s.depth + 1 }.record (.block s.depth e src))
  leave : ∀ {d s s'}, I d s → I (d + 1) s' → I d { s' with depth := s.depth }

/-- `P` holds when a run comes back, and `K` when it is stuck. -/
def Ends {α : Type} (K : Sess F → Prop) (P : α → Sess F → Prop) (r : Res F α) : Prop :=
  match r with
  | (some a, s) => P a s
  | (none, s) => K s

namespace Ends
variable {α β : Type} {K : Sess F → Prop} {P Q : α → Sess F → Prop} {r : Res F α}

theorem mono (h : Ends K P r) (hpq : ∀ a s, P a s → Q a s) : Ends K Q r := by
  obtain ⟨_ | a, s⟩ := r
  · exact h
  · exact hpq a s h

theorem bind {R : β → Sess F → Prop} {k : α → Sess F → Res F β} (h : Ends K P r)
    (hk : ∀ a s, P a s → Ends K R (k a s)) : Ends K R (r.bind k) := by
  obtain ⟨_ | a, s⟩ := r
  · exact h
  · exact hk a s h

end Ends

namespace RunRule
variable {I J : ℕ → Sess F → Prop} {K : Sess F → Prop} {d e : ℕ} {s : Sess F}

section
variable (R : RunRule I J K) (h : I d s)
include R h

theorem within (r : Option (α × Mach F)) : Ends K (fun _ => I d) (Res.within s e r) := by
  match r with
  | none => exact R.stuck (R.next h)
  | some (a, m) => exact R.quiet h (.put e m)

theorem lift {r : Option (Sess F)} (hr : ∀ s', r = some s' → Quiet s s') :
    Ends K (fun _ s' => I d s' ∧ Quiet s s') (Res.lift s r) := by
  match r with
  | none => exact R.stuck (R.next h)
  | some s' => exact ⟨R.quiet h (hr s' rfl), hr s' rfl⟩

theorem popOr {msg : Msg} {k : ℕ → Sess F → Res F Bool} {Q : Bool → Sess F → Prop} (hfalse : ∀ s, I d s → Q false s)
    (hk : ∀ tk s, I d s → Ends K Q (k tk s)) : Ends K Q (s.popOr e msg k) := by
  rw [Sess.popOr]
  split
  next tk m _ => exact hk tk _ (R.quiet h (.put e m))
  next m _ => exact hfalse _ (R.quiet h ((Quiet.put e m).trans (.print msg)))

end

/-- A jump comes back with `true`. -/
def After (I J : ℕ → Sess F → Prop) (d : ℕ) (b : Bool) (s : Sess F) : Prop :=
  J d s ∧ (b = false → I d s)

theorem after (R : RunRule I J K) {b : Bool} (h : I d s) : After I J d b s := ⟨R.next h, fun _ => h⟩

theorem labl (R : RunRule I J K) (h : I d s) : Ends K (fun _ => I d) (s.labl e) := by
  refine R.popOr h (fun _ => id) fun tk s h => ?_
  dsimp only
  split_ifs
  · exact R.quiet h (.print _)
  · exact R.label _ _ _ h

theorem jumpFn (R : RunRule I J K) (h : I d s) : Ends K (After I J d) (s.jump e) := by
  refine R.popOr h (fun _ => R.after) fun tk s h => ?_
  dsimp only
  split_ifs
  · exact R.after (R.quiet h ⟨rfl, rfl, rfl⟩)
  · exact R.after (R.quiet h (.print _))
  · split
    next l hl =>
      have hname : l.name = (s.tok tk).str := by simpa using List.find?_some hl
      rw [← hname]
      exact ⟨R.jump h (List.mem_of_find?_eq_some hl), fun hb => absurd hb (by simp)⟩
    next => exact R.after (R.quiet h (.print _))

variable [Fnum F] {x : Ext F} {ci : Sess F → Res F Bool} {fuel ent : ℕ}

theorem doJump (R : RunRule I J K) (h : I d s) : Ends K (fun _ => I d) (s.doJump x e) := by
  rw [Sess.doJump]
  split
  all_goals exact R.quiet h ⟨rfl, rfl, rfl⟩

variable (hci : ∀ d s, I d s → Ends K (fun _ => I d) (ci s))
include hci

section
variable (R : RunRule I J K) (h : I d s)
include R h

theorem runBranch (block : ℕ) (cond : IfCond) : Ends K (fun _ => I d) (s.runBranch x ci fuel e block cond) := by
  unfold Sess.runBranch
  generalize hready : ({ s with autorun := .notdef, autopre := none }.setIfcond e cond : Sess F) =
    ready
  have hq : Quiet s ready := hready ▸ ⟨rfl, rfl, rfl⟩
  refine Ends.bind (R.lift (R.quiet h hq) fun s' hs' => ?_) fun _ s1 h1 => ?_
  · split at hs'
    · obtain ⟨⟨p, s2⟩, hs2, rfl⟩ := Option.map_eq_some_iff.mp hs'
      have hquiet := Quiet.precompile hs2
      exact ⟨hquiet.log, hquiet.labels, hquiet.depth⟩
    · have hquiet := Quiet.restorePrefix hs'
      exact ⟨hquiet.log, hquiet.labels, hquiet.depth⟩
  · have henter := R.enter e (s1.pres s1.pre).src h1.1
    rw [h1.2.depth, hq.depth] at henter
    refine Ends.bind (hci _ _ henter) fun _ s2 h2 => ?_
    exact R.quiet (R.leave h h2) ⟨rfl, rfl, rfl⟩

theorem runIf : Ends K (fun _ => I d) (s.runIf x ci fuel e) := by
  refine R.popOr h (fun _ => id) fun block s h => R.popOr h (fun _ => id) fun logic s h => ?_
  dsimp only
  split_ifs
  · exact R.runBranch hci (R.quiet h (.put _ _)) _ _
  · exact R.quiet h ⟨rfl, rfl, rfl⟩

theorem runFn : Ends K (After I J d) (s.runFn x ci fuel e ent) := by
  have hafter : ∀ {r : Res F Bool}, Ends K (fun _ => I d) r → Ends K (After I J d) r :=
    fun hr => hr.mono fun _ _ => R.after
  unfold Sess.runFn
  split
  · exact hafter (R.labl h)
  · exact R.jumpFn h
  · exact R.after (R.quiet h ⟨rfl, rfl, rfl⟩)
  · exact hafter (R.doJump h)
  · unfold Sess.ifFn
    split_ifs
    · exact R.after (R.quiet h (.print _))
    · exact hafter (R.runIf hci h)
  · unfold Sess.elseIfFn
    split
    · exact R.after (R.quiet h (.put _ _))
    · exact hafter (R.runIf hci h)
    · exact R.after (R.quiet h (.print _))
  · unfold Sess.elseFn
    split
    · exact R.popOr h (fun _ => R.after) fun _ _ h => R.after (R.quiet h ⟨rfl, rfl, rfl⟩)
    · refine R.popOr h (fun _ => R.after) fun _ _ h => ?_
      refine Ends.bind (R.runBranch hci h _ _) fun _ _ h => ?_
      exact R.after (R.quiet h ⟨rfl, rfl, rfl⟩)
    · exact R.after (R.quiet h (.print _))
  · exact R.after (R.quiet h (.print _))
  · exact hafter (R.within h _)

end

/-- After a token the run goes on, or ends between tokens. -/
def Goes (I J : ℕ → Sess F → Prop) (d : ℕ) (f : Flow) (s : Sess F) : Prop :=
  match f with
  | .go => J d s
  | .ret _ => I d s

theorem runTok (R : RunRule I J K) (h : I d s) : Ends K (Goes I J d) (s.runTok x ci fuel e ent) := by
  have hgo : ∀ (b : Bool) s, After I J d b s → Goes I J d (if b then .go else .ret false) s := by
    intro b s hb
    cases b with
    | true => exact hb.1
    | false => exact hb.2 rfl
  unfold Sess.runTok
  split
  · exact Ends.bind (R.runFn hci h) fun b s hb => hgo b s hb
  · exact Ends.bind (R.within h _) fun b s hb => hb
  · exact R.next (R.quiet h (.put _ _))
  · exact Ends.bind (R.within h _) fun b s hb => hgo b s (R.after hb)

theorem runTokens (R : RunRule I J K) (h : J d s) : Ends K (fun _ => I d) (Sess.runTokens x ci fuel n s) := by
  induction n generalizing s with
  | zero => exact R.stuck h
  | succ n ih =>
    rw [Sess.runTokens]
    split
    · exact R.stuck h
    next e hcur =>
      split
      next hnil => exact R.done h hcur hnil
      next ent hent =>
        refine Ends.bind (R.runTok hci (R.exec h hcur hent)) fun f s hs => ?_
        cases f with
        | go => exact ih hs
        | ret b => exact hs

omit hci in
theorem finish (R : RunRule I J K) (h : I d s) : Ends K (fun _ => I d) (s.finish x fuel) := by
  have hanswer : ∀ e m t, Ends K (fun _ => I d) (s.answer x e m t) := fun e m t =>
    R.within h _
  unfold Sess.finish
  split
  · exact R.stuck (R.next h)
  · split_ifs
    · split
      · exact R.quiet h ⟨rfl, rfl, rfl⟩
      · split
        · exact hanswer _ _ _
        · split_ifs
          · exact hanswer _ _ _
          · exact R.quiet h ⟨rfl, rfl, rfl⟩
    · exact R.within h _
    · exact h

section
variable (R : RunRule I J K) (h : I d s)
include R h

theorem runPrefix : Ends K (fun _ => I d) (s.runPrefix x ci fuel) := by
  unfold Sess.runPrefix
  split
  · exact R.stuck (R.next h)
  · split
    · exact R.stuck (R.next h)
    · refine Ends.bind (R.runTokens hci (R.next (R.quiet h (.put _ _)))) fun f s hs => ?_
      cases f with
      | go => exact R.finish hs
      | ret b => exact hs

theorem ciLoop : Ends K (fun _ => I d) (Sess.ciLoop x ci fuel n s) := by
  induction n generalizing s with
  | zero => exact R.stuck (R.next h)
  | succ n ih =>
    unfold Sess.ciLoop
    split
    · exact h
    · split_ifs
      · exact R.quiet h ⟨rfl, rfl, rfl⟩
      · exact ih (R.quiet h ⟨rfl, rfl, rfl⟩)
      · refine Ends.bind (R.runPrefix hci h) fun b s hs => ?_
        cases b with
        | false => exact hs
        | true =>
          have hgoto : Ends K (fun _ => I d) (if s.goto then
              (Res.lift s (Sess.restorePrefix fuel { s with goto := false })).bind fun _ s' =>
                (some (), s'.setCur s.cur) else (some (), s)) := by
            split_ifs
            · refine Ends.bind (R.lift hs fun s' hs' => ?_) fun _ s' hs' => ?_
              · have hquiet := Quiet.restorePrefix hs'
                exact ⟨hquiet.log, hquiet.labels, hquiet.depth⟩
              · exact R.quiet hs'.1 (.setCur _)
            · exact hs
          refine Ends.bind hgoto fun _ s hs => ?_
          split
          · exact R.stuck (R.next hs)
          · exact ih (R.quiet hs (.setCur _))

theorem afterCi : Ends K (fun _ => I d) (s.afterCi ci fuel) := by
  unfold Sess.afterCi
  split
  · refine Ends.bind (hci d _ (R.quiet h ⟨rfl, rfl, rfl⟩)) fun _ s1 h1 => ?_
    refine Ends.bind (R.lift h1 fun _ => Quiet.restorePrefix) fun _ s2 h2 => ?_
    split
    all_goals exact R.quiet h2.1 ⟨rfl, rfl, rfl⟩
  · exact R.quiet h ⟨rfl, rfl, rfl⟩
  · exact R.quiet h ⟨rfl, rfl, rfl⟩
  · exact h

end
end RunRule

theorem RunRule.runCi [Fnum F] {I J : ℕ → Sess F → Prop} {K : Sess F → Prop}
    (R : RunRule I J K) (n : ℕ) {s : Sess F} (h : I d s) : Ends K (fun _ => I d) (Sess.runCi x n s) := by
  induction n generalizing d s with
  | zero => exact R.stuck (R.next h)
  | succ n ih =>
    have hci : ∀ d s, I d s → Ends K (fun _ => I d) (Sess.runCi x n s) := fun _ _ => ih
    refine Ends.bind (R.ciLoop hci (R.quiet h (.setCur _))) fun b s hs => ?_
    split_ifs
    · exact R.afterCi hci hs
    · exact hs

end Sess

open List

namespace Sess
variable {F : Type} {s : Sess F} {log : List Event}

/-- The last event is a `goto` to `t`, and `ent` is the next token of its prefix list. -/
def pending : List Event → Option (Option ℕ × ℕ)
  | .goto _ t (some ent) :: _ => some (t, ent)
  | _ => none

/-- In the log, last event first, such a `goto` has a label, and the expression it goes to is executed
next. -/
def Jumps : List Event → Prop
  | [] => True
  | ev :: log => Jumps log ∧
      (∀ name t ent, ev = .goto name t (some ent) → ∃ e, .label name e t ∈ log) ∧
      ∀ t ent, pending log = some (t, ent) → ∃ e, t = some e ∧ ev = .exec e

def Labelled (s : Sess F) : Prop := ∀ l ∈ s.labels, ∃ e, .label l.name e l.nextexp ∈ s.log

structure Calm (s : Sess F) : Prop where
  jumps : Jumps s.log
  labels : s.Labelled
  pending : pending s.log = none

structure Jumping (s : Sess F) : Prop where
  jumps : Jumps s.log
  labels : s.Labelled
  target : ∀ t ent, pending s.log = some (t, ent) → s.cur = t ∧ ∃ e, t = some e ∧ (s.exps e).prefixfirst = some ent

theorem Calm.record {ev : Event} (h : s.Calm) (hev : ∀ name t left, ev ≠ .goto name t left) : (s.record ev).Calm := by
  refine ⟨⟨h.jumps, fun name t ent heq => absurd heq (hev _ _ _), ?_⟩, fun l hl => ?_, ?_⟩
  · intro t ent hpend
    rw [h.pending] at hpend
    simp at hpend
  · obtain ⟨e, he⟩ := h.labels l hl
    exact ⟨e, mem_cons_of_mem _ he⟩
  · cases ev with
    | goto name t left => exact absurd rfl (hev name t left)
    | _ => rfl

theorem calm_label (name : List Char) (e : ℕ) (nextexp : Option ℕ) (h : s.Calm) :
    ({ s with labels := s.labels ++ [Label.mk name s.pre nextexp] }.record (.label name e nextexp)).Calm := by
  have hrec : (s.record (.label name e nextexp)).Calm := h.record (by simp)
  refine ⟨hrec.jumps, fun l hl => ?_, hrec.pending⟩
  rcases mem_append.mp hl with hl | hl
  · exact hrec.labels l hl
  · rw [mem_singleton.mp hl]
    exact ⟨e, mem_cons_self⟩

theorem Calm.jumpTo {l : Label} (h : s.Calm) (hl : l ∈ s.labels) : (s.jumpTo l).Jumping := by
  refine ⟨⟨h.jumps, ?_, ?_⟩, fun l' hl' => ?_, ?_⟩
  · rintro name t ent heq
    obtain ⟨rfl, rfl, -⟩ := Event.goto.inj heq
    exact h.labels l hl
  · intro t ent hpend
    change Sess.pending s.log = _ at hpend
    rw [h.pending] at hpend
    simp at hpend
  · obtain ⟨e, he⟩ := h.labels l' hl'
    exact ⟨e, mem_cons_of_mem _ he⟩
  · intro t ent hpend
    have hcur : (s.jumpTo l).cur = l.nextexp := cur_setCur _ _
    change Sess.pending (.goto l.name l.nextexp (l.nextexp.bind fun e => (s.exps e).prefixfirst) ::
      s.log) = _ at hpend
    cases hleft : l.nextexp.bind fun e => (s.exps e).prefixfirst with
    | none => simp [hleft, Sess.pending] at hpend
    | some left =>
      obtain ⟨rfl, rfl⟩ : l.nextexp = t ∧ left = ent := by
        simpa [hleft, Sess.pending] using hpend
      obtain ⟨e, he, hfirst⟩ := Option.bind_eq_some_iff.mp hleft
      exact ⟨hcur, e, he, hfirst⟩

theorem Jumping.advance {e ent : ℕ} (h : s.Jumping) (hcur : s.cur = some e) : (s.advance e ent).Calm := by
  refine ⟨⟨h.jumps, by simp, fun t ent' hpend => ?_⟩, fun l hl => ?_, rfl⟩
  · exact ⟨e, (h.target t ent' hpend).1.symm.trans hcur, rfl⟩
  · obtain ⟨a, ha⟩ := h.labels l hl
    exact ⟨a, mem_cons_of_mem _ ha⟩

theorem Jumping.done {e : ℕ} (h : s.Jumping) (hcur : s.cur = some e)
    (hnil : (s.exps e).prefixfirst = none) : s.Calm := by
  refine ⟨h.jumps, h.labels, ?_⟩
  cases hpend : Sess.pending s.log with
  | none => rfl
  | some p =>
    obtain ⟨ht, e', he', hfirst⟩ := h.target p.1 p.2 hpend
    obtain rfl : e = e' := Option.some.inj (hcur.symm.trans (ht.trans he'))
    simp [hnil] at hfirst

theorem jumpRule : RunRule (fun _ => Calm (F := F)) (fun _ => Jumping) fun s => Jumps s.log where
  quiet h hq := ⟨by rw [hq.log]; exact h.jumps,
    fun l hl => by rw [hq.log]; exact h.labels l (hq.labels ▸ hl), by rw [hq.log]; exact h.pending⟩
  label name e nextexp h := calm_label name e nextexp h
  jump h hl := h.jumpTo hl
  exec h hcur _ := h.advance hcur
  done h hcur hnil := h.done hcur hnil
  next h := ⟨h.jumps, h.labels, by simp [h.pending]⟩
  stuck h := h.jumps
  enter {_ s} e src h :=
    have hdeeper : Calm { s with depth := s.depth + 1 } := ⟨h.jumps, h.labels, h.pending⟩
    hdeeper.record (by simp)
  leave _ h := ⟨h.jumps, h.labels, h.pending⟩

theorem Jumps.of_append {ps qs : List Event} {name : List Char} {t : Option ℕ} {ent : ℕ}
    (h : Jumps (ps ++ .goto name t (some ent) :: qs)) :
    (∃ e, .label name e t ∈ qs) ∧ (ps = [] ∨ ∃ e, t = some e ∧ ps.getLast? = some (.exec e)) := by
  induction ps with
  | nil => exact ⟨h.2.1 name t ent rfl, .inl rfl⟩
  | cons p ps ih =>
    obtain ⟨hlabel, hnext⟩ := ih h.1
    refine ⟨hlabel, .inr ?_⟩
    rcases hnext with rfl | ⟨e, he, hlast⟩
    · obtain ⟨e, he, rfl⟩ := h.2.2 t ent rfl
      exact ⟨e, he, rfl⟩
    · refine ⟨e, he, ?_⟩
      rw [getLast?_cons, hlast]
      rfl

/-- A run in order: a `goto` to `t` after `pre` lands when there is such a label in `pre` and the
expression after the label is executed next. A run that is cut off may end with the `goto`. -/
structure Lands (r : Res F Bool) (pre : List Event) (name : List Char) (t : Option ℕ) (post : List Event) : Prop where
  label : ∃ e, .label name e t ∈ pre
  next : post = [] ∧ r.1 = none ∨ ∃ e, t = some e ∧ post.head? = some (.exec e)

variable [Fnum F]

/-- In every run a `goto` lands if the prefix list of the expression it goes to is left: it has not
been executed, or has been restored since. -/
theorem lands_of_left (x : Ext F) (n : ℕ) (s : Sess F) (hlog : s.log = []) (hlabels : s.labels = [])
    {pre post : List Event} {name : List Char} {t : Option ℕ} {ent : ℕ}
    (h : (runCi x n s).2.log.reverse = pre ++ .goto name t (some ent) :: post) :
    Lands (runCi x n s) pre name t post := by
  have hstart : s.Calm := ⟨by rw [hlog]; trivial, by simp [Labelled, hlabels], by rw [hlog]; rfl⟩
  have hends := jumpRule.runCi (x := x) n (d := 0) hstart
  have hrev : (runCi x n s).2.log = post.reverse ++ .goto name t (some ent) :: pre.reverse := by
    rw [← reverse_reverse (runCi x n s).2.log, h]
    simp
  have hjumps : Jumps (runCi x n s).2.log := by
    revert hends
    rcases runCi x n s with ⟨_ | b, s'⟩
    · exact id
    · exact Calm.jumps
  rw [hrev] at hjumps
  obtain ⟨⟨e, he⟩, hnext⟩ := hjumps.of_append
  refine ⟨⟨e, by simpa using he⟩, ?_⟩
  rcases hnext with hnil | ⟨e', ht, hlast⟩
  · left
    obtain rfl : post = [] := by simpa using hnil
    refine ⟨rfl, ?_⟩
    revert hends hrev
    rcases runCi x n s with ⟨_ | b, s'⟩
    · exact fun _ _ => rfl
    · intro hcalm hrev
      have hpend : Sess.pending s'.log = none := Calm.pending hcalm
      rw [show s'.log = .goto name t (some ent) :: pre.reverse from hrev] at hpend
      simp [Sess.pending] at hpend
  · exact .inr ⟨e', ht, by rw [← getLast?_reverse]; exact hlast⟩

/-- `label L; 5; goto L` -/
def backJump : Sess ℤ :=
  (prefixExps 9 [some [.fresh .label ['l', 'a', 'b', 'e', 'l'], .fresh .str ['L']],
    some [.fresh .int ['5']], some [.fresh .goto ['g', 'o', 't', 'o'], .fresh .str ['L']]]
    (start [⟨ansVarName, .sys, false, 0, -1⟩])).getD (start [])

theorem log_backJump : (runCi .nothing 6 backJump).2.log.reverse =
    [.exec 0, .exec 0, .label ['L'] 0 (some 1), .exec 1, .exec 2, .exec 2,
      .goto ['L'] (some 1) none, .exec 2, .exec 2, .goto ['L'] (some 1) (some 2), .exec 1, .exec 2,
      .exec 2, .goto ['L'] (some 1) (some 2), .exec 1] := by
  decide +kernel

/-- The second `goto` lands. -/
theorem lands_of_left_backJump : ∃ pre post,
    (runCi .nothing 6 backJump).2.log.reverse = pre ++ .goto ['L'] (some 1) (some 2) :: post ∧
    Lands (runCi .nothing 6 backJump) pre ['L'] (some 1) post := by
  refine ⟨[.exec 0, .exec 0, .label ['L'] 0 (some 1), .exec 1, .exec 2, .exec 2, .goto ['L'] (some 1) none,
    .exec 2, .exec 2], [.exec 1, .exec 2, .exec 2, .goto ['L'] (some 1) (some 2), .exec 1], log_backJump, ?_⟩
  exact lands_of_left .nothing 6 backJump (by decide +kernel) (by rfl) log_backJump

/-- The first `goto` leaves out the expression after the label. -/
theorem not_lands_backJump : ∃ pre post,
    (runCi .nothing 6 backJump).2.log.reverse = pre ++ .goto ['L'] (some 1) none :: post ∧
    ¬ Lands (runCi .nothing 6 backJump) pre ['L'] (some 1) post := by
  refine ⟨[.exec 0, .exec 0, .label ['L'] 0 (some 1), .exec 1, .exec 2, .exec 2],
    [.exec 2, .exec 2, .goto ['L'] (some 1) (some 2), .exec 1, .exec 2, .exec 2,
      .goto ['L'] (some 1) (some 2), .exec 1], log_backJump, fun h => ?_⟩
  rcases h.next with ⟨hnil, -⟩ | ⟨e, he, hexec⟩
  · simp at hnil
  · cases he
    simp at hexec

end Sess
end Prj.Ddlus
