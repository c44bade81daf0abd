import Prj.Ddlus.Ledger

/-! What `restore_prefix` does to the tokens of an expression, and what a calculation leaves for it
(`ddlus/console/parse.c`). -/
namespace Prj.Ddlus
open Prj.Base Function

namespace Mach
variable {F : Type} [Fnum F] {m : Mach F} {p : Option ℕ} {ys : List ℕ} {fuel : ℕ}

theorem restoreWalk_spec (h : Chain m.prenext p ys) (hfuel : ys.length < fuel) : restoreWalk fuel p m = some { m with
      tok := fun t => if t ∈ ys then restoreTok (m.tok t) else m.tok t
      next := fun t => if t ∈ ys then m.prenext t else m.next t } := by
  induction ys generalizing m p fuel with
  | nil =>
    obtain ⟨fuel, rfl⟩ := Nat.exists_eq_add_of_lt hfuel
    obtain rfl : p = none := h
    simp [restoreWalk]
  | cons y ys ih =>
    obtain ⟨fuel, rfl⟩ : ∃ k, fuel = k + 1 := ⟨fuel - 1, by omega⟩
    have hy : y ∉ ys := (List.nodup_cons.1 h.nodup).1
    obtain ⟨rfl, h⟩ := h
    rw [restoreWalk, ih (m := { m with
      tok := update m.tok y (restoreTok (m.tok y))
      next := update m.next y (m.prenext y) }) h (by simpa using hfuel)]
    congr 2 <;> funext t <;> by_cases hty : t = y
    · simp [hty, hy]
    · simp [hty]
    · simp [hty, hy]
    · simp [hty]

theorem id_restoreTok (t : Tok F) : (restoreTok t).id = t.id := by
  unfold restoreTok
  split_ifs <;> rfl

theorem fromTable_restoreTok {t : Tok F} (h : t.FromTable) : (restoreTok t).FromTable := by
  unfold restoreTok
  split_ifs <;> exact h

end Mach

section Reread
variable {F : Type} [Fnum F]

def signBy (neg : Bool) (v : F) : F := if neg then Fnum.neg v else v

def TokId.IsNumber : TokId → Bool
  | int | real | science => true
  | _ => false

/-- How a token is read again after `restore_prefix`: `t` is the token as compiled, `known` says that
it was read before it held a result, and `held` is the last result it held. -/
def reread (vars : List (Var F)) (t : Tok F) (known : Bool) (held : Option F) : F :=
  if t.id.IsNumber then
    if known then signBy t.neg (Fnum.strtold t.str)
    else if held.isSome then t.valreg
    else signBy (isNeg t.valreg) (Fnum.strtold t.str)
  else signBy (held.elim t.neg isNeg) (if t.id = .var then varVal vars t.str else Fnum.zero)

variable {a : List Char → ℤ → ℤ → F} {vars : List (Var F)} {t : Tok F}

theorem signed_restore_number (htab : t.FromTable) (hid : t.id.IsNumber = true) :
    ((Mach.restoreTok t).resolve a vars).signed =
      if t.res then t.valreg else signBy (isNeg t.valreg) (Fnum.strtold t.str) := by
  have htype : t.type = .number ∧ (t.id = .int ∨ t.id = .real ∨ t.id = .science) := by
    rw [htab.1]
    revert hid
    cases t.id <;> simp [TokId.IsNumber, TokId.type]
  simp only [Mach.restoreTok, htype.1, true_or, if_true, if_pos htype.2]
  cases hn : isNeg t.valreg <;> cases hr : t.res <;> rcases htype.2 with h | h | h <;>
    simp [Tok.resolve, h, Tok.signed, signBy, Fnum.neg_neg]

theorem signed_restore_other (htab : t.FromTable) (hop : t.id.IsOperand = true)
    (hid : t.id.IsNumber = false) : ((Mach.restoreTok t).resolve a vars).signed =
      signBy t.neg (if t.id = .var then varVal vars t.str else Fnum.zero) := by
  obtain h | h : t.id = .date ∨ t.id = .var := by
    revert hop hid
    cases t.id <;> simp [TokId.IsOperand, TokId.IsNumber]
  all_goals simp [Mach.restoreTok, htab.1, h, TokId.type, Tok.resolve, Tok.signed, signBy]

variable {x : Ext F} {tok : ℕ → Tok F} {c : Ledger F} {i : ℕ}

theorem res_track (h : (tok i).res = false) : (Ledger.track x vars tok c i).res = (c.known i || (c.held i).isSome) := by
  unfold Ledger.track
  cases c.held i <;> cases c.known i <;> simp [Tok.settokval, h, Reg.resolved]

theorem neg_track : (Ledger.track x vars tok c i).neg = (c.held i).elim (tok i).neg isNeg := by
  have hneg : ((tok i).resolve (x.arrayVal vars) vars).neg = (tok i).neg := by
    obtain ⟨_, _, h⟩ := Tok.resolve_eq (x.arrayVal vars) vars (tok i)
    rw [h]
  unfold Ledger.track
  cases c.held i <;> cases c.known i <;> simp [Tok.settokval, Reg.resolved, hneg]

theorem valreg_track (h : (tok i).res = false) (hid : (tok i).id.IsNumber = true) :
    (Ledger.track x vars tok c i).valreg =
      if c.known i then signBy (tok i).neg (Fnum.strtold (tok i).str) else (tok i).valreg := by
  have hval : ((tok i).resolve (x.arrayVal vars) vars).valreg = signBy (tok i).neg (Fnum.strtold (tok i).str) := by
    revert hid
    unfold Tok.resolve
    cases (tok i).id <;> simp [TokId.IsNumber, h, signBy]
  unfold Ledger.track
  cases c.held i <;> cases c.known i <;> simp [Tok.settokval, Reg.resolved, hval]

theorem value_restoreTok (htab : (tok i).FromTable) (hop : (tok i).id.IsOperand = true)
    (hres : (tok i).res = false) : ((Mach.restoreTok (Ledger.track x vars tok c i)).resolve a vars).signed =
      reread vars (tok i) (c.known i) (c.held i) := by
  have hshape : (Ledger.track x vars tok c i).shape = (tok i).shape := Ledger.shape_track i
  have hid := Tok.id_eq_of_shape hshape
  have hstr : (Ledger.track x vars tok c i).str = (tok i).str := congrArg (·.2.2.2.1) hshape
  have htab' := Tok.fromTable_of_shape hshape htab
  cases hnum : (tok i).id.IsNumber with
  | true =>
    rw [signed_restore_number htab' (by rw [hid, hnum]), res_track hres, valreg_track hres hnum, hstr]
    unfold reread
    rw [if_pos hnum]
    cases c.known i <;> rfl
  | false =>
    rw [signed_restore_other htab' (by rw [hid, hop]) (by rw [hid, hnum]), neg_track, hid, hstr]
    unfold reread
    rw [hnum]
    rfl

theorem reread_eq (hres : (tok i).res = false) (hop : (tok i).id.IsOperand = true)
    {known : Bool} {held : Option F} (hk : known = true)
    (hsign : (tok i).id.IsNumber = false → ∀ v, held = some v → isNeg v = (tok i).neg) :
    reread vars (tok i) known held = Reg.value x vars tok i := by
  unfold reread Reg.value Reg.resolved
  cases hnum : (tok i).id.IsNumber with
  | true =>
    have hval : ((tok i).resolve (x.arrayVal vars) vars).signed = signBy (tok i).neg (Fnum.strtold (tok i).str) := by
      revert hnum
      unfold Tok.resolve
      cases (tok i).id <;> simp [TokId.IsNumber, hres, Tok.signed, signBy]
    rw [hval, hk]
    rfl
  | false =>
    have hneg : held.elim (tok i).neg isNeg = (tok i).neg := by
      cases held with
      | none => rfl
      | some v => exact hsign hnum v rfl
    obtain h | h : (tok i).id = .date ∨ (tok i).id = .var := by
      revert hop hnum
      cases (tok i).id <;> simp [TokId.IsOperand, TokId.IsNumber]
    all_goals simp [hneg, h, Tok.resolve, hres, Tok.signed, signBy]
end Reread

namespace Sess
variable {F : Type} {s s' : Sess F} {e e' fuel n : ℕ} {xs ys es : List ℕ} {p : Option ℕ} [Fnum F]

theorem restoreExp_spec (h : Chain s.prenext (s.exps e').saveprefixfirst ys)
    (hfuel : ys.length < fuel) : ∃ m, ((s.setCur (some e')).mach e').restoreExp fuel = some m ∧
      Resets s ((s.setCur (some e')).put e' m) ∧ ∀ t, ((s.setCur (some e')).put e' m).tok t =
          (if t ∈ ys then Mach.restoreTok (s.tok t) else s.tok t) ∧
        ((s.setCur (some e')).put e' m).next t = if t ∈ ys then s.prenext t else s.next t :=
  ⟨_, Mach.restoreWalk_spec h hfuel, (resets_setCur s (some e')).trans (resets_put _ _ _ _ _), fun _ => ⟨rfl, rfl⟩⟩

/-- The loop over the expressions `es`, which have no branches. The tokens `xs` of `e` are restored
if it is among them, and the other expressions do not touch them. -/
theorem restoreExps_spec (rec : Sess F → Option (Sess F))
    (hes : Chain (fun e => (s.exps e).next) p es) (hbr : ∀ a ∈ es, (s.exps a).branch = none)
    (hys : ∀ a ∈ es, ∃ ys, Chain s.prenext (s.exps a).saveprefixfirst ys ∧ ys.length < fuel ∧
      if a = e then ys = xs else ∀ t ∈ ys, t ∉ xs) (hn : es.length < n) :
    ∃ s', restoreExps rec fuel n p s = some s' ∧ Resets s s' ∧
      ∀ t ∈ xs, s'.tok t = (if e ∈ es then Mach.restoreTok (s.tok t) else s.tok t) ∧
        s'.next t = if e ∈ es then s.prenext t else s.next t := by
  induction es generalizing s p n with
  | nil =>
    obtain ⟨n, rfl⟩ := Nat.exists_eq_add_of_lt hn
    obtain rfl : p = none := hes
    exact ⟨s.setCur none, by simp [restoreExps], resets_setCur s none, fun t _ => by simp [setCur]⟩
  | cons a es ih =>
    obtain ⟨n, rfl⟩ : ∃ k, n = k + 1 := ⟨n - 1, by omega⟩
    have ha : a ∉ es := (List.nodup_cons.1 hes.nodup).1
    obtain ⟨rfl, hes⟩ := hes
    obtain ⟨ys, hchain, hlen, hdis⟩ := hys a (by simp)
    obtain ⟨m, hm, hres, htok⟩ := restoreExp_spec hchain hlen
    obtain ⟨s1, hs1⟩ : ∃ s1, s1 = (s.setCur (some a)).put a m := ⟨_, rfl⟩
    rw [← hs1] at hres htok
    -- nothing that the rest of the loop follows has changed
    have hsame : s1.prenext = s.prenext ∧ ∀ b, (s1.exps b).next = (s.exps b).next ∧
        (s1.exps b).branch = (s.exps b).branch ∧
        (s1.exps b).saveprefixfirst = (s.exps b).saveprefixfirst := by
      obtain ⟨_, _, _, _, rfl⟩ := hres
      exact ⟨rfl, fun b => ⟨rfl, rfl, rfl⟩⟩
    have hbra := hbr a (by simp)
    obtain ⟨s', hs', hres', htok'⟩ := ih (s := s1) (n := n) (p := (s1.exps a).next)
      (by simpa only [hsame] using hes) (fun b hb => by rw [(hsame.2 b).2.1]; exact hbr b (by simp [hb]))
      (fun b hb => by rw [hsame.1, (hsame.2 b).2.2]; exact hys b (by simp [hb])) (by simpa using hn)
    refine ⟨s', ?_, hres.trans hres', fun t ht => ?_⟩
    · simp only [restoreExps, hm, Option.bind_some, ← hs1, (hsame.2 a).2.1, hbra]
      exact hs'
    · rw [(htok' t ht).1, (htok' t ht).2, (htok t).1, (htok t).2, hsame.1]
      by_cases hae : a = e
      · subst hae
        rw [if_pos rfl] at hdis
        simp [ha, hdis, ht]
      · rw [if_neg hae] at hdis
        have hty : t ∉ ys := fun hin => hdis t hin ht
        simp [hty, Ne.symm hae]

theorem restorePrefix_spec (es : List ℕ) (hes : Chain (fun e => (s.exps e).next) (s.pres s.pre).expfirst es)
    (hbr : ∀ a ∈ es, (s.exps a).branch = none) (he : e ∈ es)
    (hys : ∀ a ∈ es, ∃ ys, Chain s.prenext (s.exps a).saveprefixfirst ys ∧ ys.length < n ∧
      if a = e then ys = xs else ∀ t ∈ ys, t ∉ xs) (hn : es.length < n) :
    ∃ s', restorePrefix (n + 1) s = some s' ∧ Resets s s' ∧
      ∀ t ∈ xs, s'.tok t = Mach.restoreTok (s.tok t) ∧ s'.next t = s.prenext t := by
  obtain ⟨s', hs', hres, htok⟩ := restoreExps_spec (e := e) (restorePrefix n) hes hbr hys hn
  refine ⟨s', ?_, hres, by simpa [he] using htok⟩
  cases hfirst : (s.pres s.pre).expfirst with
  | none =>
    rw [hfirst] at hes
    cases es with
    | nil => simp at he
    | cons a es => simp at hes
  | some a =>
    simpa only [restorePrefix, hfirst] using hs'

end Sess
end Prj.Ddlus
