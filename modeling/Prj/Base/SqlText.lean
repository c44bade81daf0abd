import Mathlib.Data.List.Basic
import Mathlib.Data.Nat.Digits.Defs

/-! The text of SQL statements: its tokens, and `INSERT` with numbered parameters. A `Char` is one
`char` of the text. -/
namespace Prj.Base.SqlText
open List

inductive Token
  | word (text : List Char)
  | var (digits : List Char)
  | sign (c : Char)
deriving DecidableEq, Repr

def identChar (c : Char) : Bool := c.isAlphanum || c = '_' || c = '$' || 128 ≤ c.toNat

def startsWord : List Char → Bool
  | [] => false
  | c :: _ => identChar c

def extend (c : Char) : List Token → List Token
  | .word text :: ts => .word (c :: text) :: ts
  | ts => .word [c] :: ts

def mark : List Token → List Token
  | .word text :: ts => .var text :: ts
  | ts => .sign '?' :: ts

def lex : List Char → List Token
  | [] => []
  | c :: cs =>
    if identChar c then
      if startsWord cs then extend c (lex cs) else .word [c] :: lex cs
    else if c = '?' ∧ startsWord cs = true then mark (lex cs)
    else if c = ' ' then lex cs
    else .sign c :: lex cs

structure IsWord (w : List Char) : Prop where
  ident : ∀ c ∈ w, identChar c = true
  first : ∃ c cs, w = c :: cs ∧ c.isDigit = false

section Lex
variable {c : Char} {s rest w : List Char}

theorem lex_startsWord (h : startsWord s = true) : ∃ text ts, lex s = .word text :: ts := by
  cases s with
  | nil => cases h
  | cons c s =>
    have hc : identChar c = true := h
    rw [lex]
    split_ifs
    · unfold extend
      split
      all_goals exact ⟨_, _, rfl⟩
    · exact ⟨_, _, rfl⟩

theorem startsWord_append (hc : identChar c = false) : startsWord (s ++ c :: rest) = startsWord s := by
  cases s with
  | nil => exact hc
  | cons d s => rfl

theorem lex_append (hc : identChar c = false) : lex (s ++ c :: rest) = lex s ++ lex (c :: rest) := by
  induction s with
  | nil => rfl
  | cons d s ih =>
    rw [cons_append, lex, startsWord_append hc, ih]
    conv_rhs => rw [lex]
    split_ifs with hd hs hq
    · obtain ⟨text, ts, hlex⟩ := lex_startsWord hs
      rw [hlex]
      rfl
    · rfl
    · obtain ⟨text, ts, hlex⟩ := lex_startsWord hq.2
      rw [hlex]
      rfl
    · rfl
    · rfl

theorem lex_of_ident (hne : w ≠ []) (h : ∀ c ∈ w, identChar c = true) : lex w = [.word w] := by
  induction w with
  | nil => exact absurd rfl hne
  | cons c w ih =>
    rw [lex, if_pos (h c mem_cons_self)]
    cases w with
    | nil => rfl
    | cons d w =>
      have hd : startsWord (d :: w) = true := h d (by simp)
      rw [if_pos hd, ih (by simp) fun e he => h e (mem_cons_of_mem _ he)]
      rfl

theorem IsWord.lex (h : IsWord w) : lex w = [.word w] := by
  obtain ⟨c, cs, hw, -⟩ := h.first
  exact lex_of_ident (by simp [hw]) h.ident

theorem lex_var (hne : w ≠ []) (h : ∀ c ∈ w, identChar c = true) : lex ('?' :: w) = [.var w] := by
  have hstarts : startsWord w = true := by
    cases w with
    | nil => exact absurd rfl hne
    | cons c w => exact h c mem_cons_self
  rw [lex, if_neg (by decide), if_pos ⟨rfl, hstarts⟩, lex_of_ident hne h]
  rfl

theorem lex_sign (hc : identChar c = false) (hq : c ≠ '?') (hs : c ≠ ' ') : lex (c :: s) = .sign c :: lex s := by
  rw [lex, if_neg (by simp [hc]), if_neg (fun h => hq h.1), if_neg hs]

theorem lex_space : lex (' ' :: s) = lex s := by
  rw [lex, if_neg (by decide), if_neg (by simp), if_pos rfl]

theorem lex_comma : lex (s ++ ',' :: ' ' :: rest) = lex s ++ .sign ',' :: lex rest := by
  rw [lex_append rfl, lex_sign rfl (by decide) (by decide), lex_space]

theorem count_lex (hc : identChar c = false) (hq : c ≠ '?') (hs : c ≠ ' ') : (lex s).count (.sign c) = s.count c := by
  induction s with
  | nil => rfl
  | cons d s ih =>
    by_cases hdc : d = c
    · subst hdc
      rw [lex_sign hc hq hs, count_cons_self, count_cons_self, ih]
    · rw [count_cons_of_ne hdc, ← ih, lex]
      split_ifs with hd hstarts hmark
      · obtain ⟨text, ts, hlex⟩ := lex_startsWord hstarts
        simp [hlex, extend]
      · simp
      · obtain ⟨text, ts, hlex⟩ := lex_startsWord hmark.2
        simp [hlex, mark]
      · rfl
      · exact count_cons_of_ne fun h => hdc (Token.sign.inj h)

theorem lex_flatten {β : Type} {f : β → List Char} {tok : β → Token} {bs : List β}
    (h : ∀ b ∈ bs, lex (f b) = [tok b]) (rest : List Char) : lex ((bs.map fun b => f b ++ [',', ' ']).flatten ++ rest) =
      (bs.flatMap fun b => [tok b, .sign ',']) ++ lex rest := by
  induction bs with
  | nil => rfl
  | cons b bs ih =>
    have hbs := ih fun x hx => h x (mem_cons_of_mem _ hx)
    rw [map_cons, flatten_cons, append_assoc, append_assoc, cons_append,
      cons_append, nil_append, lex_comma, hbs, h b mem_cons_self]
    rfl

end Lex

def insertWord : List Char := "INSERT".toList
def intoWord : List Char := "INTO".toList
def valuesWord : List Char := "VALUES".toList

theorem lex_keyword {w : List Char} (h : w = insertWord ∨ w = intoWord ∨ w = valuesWord) : lex w = [.word w] := by
  rcases h with rfl | rfl | rfl <;> decide

/-- `INSERT INTO table(cols) VALUES(vars)` -/
structure Insert where
  table : List Char
  cols : List (List Char)
  vars : List ℕ
deriving DecidableEq, Repr

/-- Items with commas between them, up to the closing parenthesis. -/
def parseList {α : Type} (item : Token → Option α) : List Token → Option (List α × List Token)
  | t :: .sign ',' :: ts =>
    match item t, parseList item ts with
    | some a, some (as, rest) => some (a :: as, rest)
    | _, _ => none
  | t :: .sign ')' :: ts => (item t).map fun a => ([a], ts)
  | _ => none

def column : Token → Option (List Char)
  | .word text => some text
  | _ => none

def param (maxVar : ℕ) : Token → Option ℕ
  | .var digits =>
    if digits.all Char.isDigit ∧ Nat.ofDigitChars 10 digits 0 ≤ maxVar then
      some (Nat.ofDigitChars 10 digits 0)
    else none
  | _ => none

def parseValues (maxVar : ℕ) : List Token → Option (List ℕ)
  | .word values :: .sign '(' :: ts =>
    if values = valuesWord then
      match parseList (param maxVar) ts with
      | some (vars, []) | some (vars, [.sign ';']) => some vars
      | _ => none
    else none
  | _ => none

def parseInsert (maxVar : ℕ) : List Token → Option Insert
  | .word insert :: .word into :: .word table :: .sign '(' :: ts =>
    if insert = insertWord ∧ into = intoWord then
      match parseList column ts with
      | some (cols, rest) =>
        match parseValues maxVar rest with
        | some vars => if cols.length = vars.length then some ⟨table, cols, vars⟩ else none
        | none => none
      | none => none
    else none
  | _ => none

section Parse
variable {α β : Type} {item : Token → Option α} {ts rest l : List Token} {as : List α} {maxVar : ℕ} {f : β → Token}

theorem parseList_last (hclose : item (.sign ')') = none) (h : parseList item ts = some (as, rest)) :
    ∃ l t, ts = l ++ t :: .sign ')' :: rest ∧ .sign ')' ∉ l ++ [t] ∧ (item t).isSome = true := by
  fun_induction parseList item ts generalizing as rest with
  | case1 t ts a as' rest' hlist hitem ih =>
    cases h
    obtain ⟨l, last, rfl, hnot, hlast⟩ := ih hlist
    refine ⟨t :: .sign ',' :: l, last, rfl, ?_, hlast⟩
    have ht : t ≠ .sign ')' := by
      rintro rfl
      simp [hclose] at hitem
    simpa [ht.symm] using hnot
  | case2 => cases h
  | case3 t ts =>
    obtain ⟨a, hitem, heq⟩ := Option.map_eq_some_iff.1 h
    cases heq
    refine ⟨[], t, rfl, ?_, by simp [hitem]⟩
    have ht : t ≠ .sign ')' := by
      rintro rfl
      simp [hclose] at hitem
    simpa using ht.symm
  | case4 => cases h

theorem append_cons_inj {l1 l2 r1 r2 : List Token} {a : Token} (h1 : a ∉ l1) (h2 : a ∉ l2)
    (h : l1 ++ a :: r1 = l2 ++ a :: r2) : l1 = l2 := by
  induction l1 generalizing l2 with
  | nil =>
    cases l2 with
    | nil => rfl
    | cons b l2 => exact absurd (List.cons.inj h).1 fun heq => h2 (heq ▸ mem_cons_self)
  | cons b l1 ih =>
    cases l2 with
    | nil => exact absurd (List.cons.inj h).1 fun heq => h1 (heq ▸ mem_cons_self)
    | cons c l2 =>
      obtain ⟨rfl, htail⟩ := List.cons.inj h
      rw [ih (fun hm => h1 (mem_cons_of_mem _ hm)) (fun hm => h2 (mem_cons_of_mem _ hm)) htail]

theorem parseList_eq_none (hclose : item (.sign ')') = none) (hnot : .sign ')' ∉ l)
    (hlast : ∀ t, l.getLast? = some t → item t = none) (rest : List Token) :
    parseList item (l ++ .sign ')' :: rest) = none := by
  cases hparse : parseList item (l ++ .sign ')' :: rest) with
  | none => rfl
  | some r =>
    obtain ⟨l', t, heq, hnot', ht⟩ := parseList_last hclose hparse
    rw [append_cons l' t] at heq
    have hl := append_cons_inj hnot hnot' heq
    have hnone : item t = none := hlast t (by rw [hl, getLast?_concat])
    simp [hnone] at ht

theorem parseList_of_items {g : β → α} (bs : List β) (b : β) (rest : List Token)
    (h : ∀ x ∈ bs ++ [b], item (f x) = some (g x)) :
    parseList item ((bs.flatMap fun b => [f b, .sign ',']) ++ f b :: .sign ')' :: rest) =
      some (bs.map g ++ [g b], rest) := by
  induction bs with
  | nil =>
    rw [flatMap_nil, nil_append, parseList, h b (by simp)]
    rfl
  | cons x bs ih =>
    have hlist := ih fun y hy => h y (mem_cons_of_mem _ hy)
    simp only [flatMap_cons, cons_append, nil_append, parseList, hlist, h x (by simp), map_cons]

theorem isSome_of_parseList {bs : List β} {b : β}
    (h : (parseList item ((bs.flatMap fun b => [f b, .sign ',']) ++ f b :: .sign ')' :: rest)).isSome =
      true) : ∀ x ∈ bs ++ [b], (item (f x)).isSome = true := by
  induction bs with
  | nil =>
    simp only [flatMap_nil, nil_append, parseList, Option.isSome_map] at h
    simpa using h
  | cons x bs ih =>
    simp only [flatMap_cons, cons_append, nil_append, parseList] at h
    split at h
    · rename_i a as rest' hitem hlist
      rw [cons_append, forall_mem_cons]
      exact ⟨by simp [hitem], ih (by simp [hlist])⟩
    · cases h

theorem parseList_count (hclose : item (.sign ')') = none) (h : parseList item ts = some (as, rest)) :
    ts.count (.sign ')') = rest.count (.sign ')') + 1 := by
  obtain ⟨l, t, rfl, hnot, -⟩ := parseList_last hclose h
  rw [← singleton_append, ← append_assoc, count_append, count_eq_zero.2 hnot, count_cons_self, zero_add]

theorem parseInsert_count (h : (parseInsert maxVar ts).isSome = true) : 2 ≤ ts.count (.sign ')') := by
  unfold parseInsert at h
  split at h
  · split_ifs at h with hwords
    swap
    · cases h
    split at h
    · rename_i cols rest hcols
      split at h
      · rename_i vars hvalues
        unfold parseValues at hvalues
        split at hvalues
        · rename_i values rest
          split_ifs at hvalues
          have hvars : ∃ vars rest', parseList (param maxVar) rest = some (vars, rest') := by
            split at hvalues
            · exact ⟨_, _, ‹_›⟩
            · exact ⟨_, _, ‹_›⟩
            · cases hvalues
          obtain ⟨vars, rest', hvars⟩ := hvars
          have h1 := parseList_count rfl hcols
          have h2 := parseList_count rfl hvars
          simp only [count_cons] at h1 ⊢
          omega
        · cases hvalues
      · cases h
    · cases h
  · cases h

end Parse
end Prj.Base.SqlText
