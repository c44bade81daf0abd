import Prj.Base.Glob
import Prj.Lib13.Str

/-! Wildcard comparison (`s13_wildcmp` in `lib13/str13.c`). A pointer into a string is the rest of
the string, without its NUL; `true` stands for the result 0 and `false` for -1. `none` is a read
outside the strings. -/
namespace Prj.Lib13
open Prj.Base List

/-- `*p` -/
def deref (p : List UInt8) : UInt8 := p.headD 0

def strchr (s : List UInt8) (c : UInt8) : Option (List UInt8) :=
  if c = 0 then some [] else
    match s.dropWhile (· ≠ c) with
    | [] => none
    | t => some t

section Code
variable (any one escape : UInt8)

/-- `while(*src == one && *dst)` -/
def skipOnes : List UInt8 → List UInt8 → List UInt8 × List UInt8
  | d :: dst, c :: src => if c = one then skipOnes dst src else (d :: dst, c :: src)
  | dst, src => (dst, src)

theorem length_skipOnes (dst src : List UInt8) : (skipOnes one dst src).2.length ≤ src.length := by
  fun_induction skipOnes one dst src with
  | case1 d dst src ih => exact Nat.le_succ_of_le ih
  | case2 | case3 => exact le_refl _

/-- `s13_wildcmp` from the top of its loop: `prev` is `*(src - 1)`, if there is one. -/
def wildLoop (prev : Option UInt8) (dst src : List UInt8) : Option Bool :=
  match src with
  | [] => if dst = [] then some true else prev.map (· == any)
  | c :: src =>
    if c = escape then
      match dst, src with
      | d :: dst, c :: src => if d ≠ c then some false else wildLoop (some c) dst src
      -- both are at their NUL and are moved past it
      | [], [] => none
      | _, _ => some false
    else if c = any then
      let src' := src.dropWhile (· = any)
      if deref src' ≠ one then
        match strchr dst (deref src') with
        | none => some false
        | some dst => wildLoop (some any) dst src'
      else wildLoop (some any) dst src'
    else
      match dst with
      | d :: dst =>
        if c = one then
          let rest := skipOnes one dst src
          wildLoop (some one) rest.1 rest.2
        else if d ≠ c then some false
        else wildLoop (some c) dst src
      | [] => some false
termination_by src.length
decreasing_by
  · exact Nat.lt_succ_of_lt (Nat.lt_succ_self _)
  · exact Nat.lt_succ_of_le (List.dropWhile_suffix _).length_le
  · exact Nat.lt_succ_of_le (List.dropWhile_suffix _).length_le
  · exact Nat.lt_succ_of_le (length_skipOnes one dst src)
  · simp

end Code

def s13Wildcmp (dst src : CStr) (any one escape : UInt8) : Option Bool :=
  wildLoop any one escape none dst.bytes src.bytes

/-- `wildcmp` (`ddlus/console/str.c`) is the same code. -/
def wildcmp : CStr → CStr → UInt8 → UInt8 → UInt8 → Option Bool := s13Wildcmp

section Items
variable (any one escape : UInt8)

/-- What a pattern is made of. An escape character at the end has nothing to escape and stands for
itself. -/
inductive WildItem
  | any
  | one
  | lit (c : UInt8)
  | esc (c : UInt8)
  | lone
deriving DecidableEq

def wildItem (c : UInt8) : WildItem :=
  if c = any then .any else if c = one then .one else .lit c

def wildItems : List UInt8 → List WildItem
  | [] => []
  | [c] => [if c = escape then .lone else wildItem any one c]
  | c :: d :: src =>
    if c = escape then .esc d :: wildItems src else wildItem any one c :: wildItems (d :: src)

def WildItem.glob : WildItem → Glob UInt8
  | .any => .any
  | .one => .one
  | .lit c => .char c
  | .esc c => .char c
  | .lone => .char escape

def ItemsMatch (p : List WildItem) (dst : List UInt8) : Prop :=
  Glob.Matches (p.map (WildItem.glob escape)) dst

/-- The string `dst` is in the glob language of the pattern `src`. -/
def InGlob (dst src : CStr) : Prop := ItemsMatch escape (wildItems any one escape src.bytes) dst.bytes

/-- The search after a star: the first occurrence of the next character of the pattern. -/
def seek : List WildItem → List UInt8 → Option (List UInt8)
  | [], _ => some []
  | .any :: _, dst => some dst
  | .one :: _, dst => some dst
  | .lit c :: _, dst => strchr dst c
  | _, dst => if escape = one then some dst else strchr dst escape

/-- `s13_wildcmp` item by item. -/
def wildRun : Option UInt8 → List WildItem → List UInt8 → Option Bool
  | prev, [], dst => if dst = [] then some true else prev.map (· == any)
  | _, .any :: p, dst =>
    match seek one escape p dst with
    | none => some false
    | some dst => wildRun (some any) p dst
  | _, .one :: p, _ :: dst => wildRun (some one) p dst
  | _, .lit c :: p, d :: dst => if d = c then wildRun (some c) p dst else some false
  | _, .esc c :: p, d :: dst => if d = c then wildRun (some c) p dst else some false
  | _, .lone :: _, [] => none
  | _, _, _ => some false

end Items

variable {any one escape : UInt8} {c : UInt8} {P : Prop}

@[simp] theorem wildItems_nil : wildItems any one escape [] = [] := rfl

@[simp] theorem wildItems_escape (d : UInt8) (src : List UInt8) :
    wildItems any one escape (escape :: d :: src) = .esc d :: wildItems any one escape src := by
  simp [wildItems]

theorem wildItems_cons (hc : c ≠ escape) (src : List UInt8) :
    wildItems any one escape (c :: src) = wildItem any one c :: wildItems any one escape src := by
  cases src with
  | nil | cons => simp [wildItems, hc]

theorem wildRun_skipOnes (hany : one ≠ any) (hesc : one ≠ escape) (dst src : List UInt8) :
    wildRun any one escape (some one) (wildItems any one escape (skipOnes one dst src).2)
      (skipOnes one dst src).1 = wildRun any one escape (some one) (wildItems any one escape src) dst := by
  fun_induction skipOnes one dst src with
  | case1 d dst src ih =>
    rw [ih, wildItems_cons hesc, wildItem, if_neg hany, if_pos rfl, wildRun]
  | case2 | case3 => rfl

@[simp] theorem wildRun_any_any (prev : Option UInt8) (p : List WildItem) (dst : List UInt8) :
    wildRun any one escape prev (.any :: .any :: p) dst = wildRun any one escape (some any) (.any :: p) dst := rfl

theorem wildRun_skipAnys (hesc : any ≠ escape) (prev : Option UInt8) (dst src : List UInt8) :
    wildRun any one escape prev (.any :: wildItems any one escape src) dst =
      wildRun any one escape (some any) (.any :: wildItems any one escape (src.dropWhile (· = any))) dst := by
  induction src generalizing prev with
  | nil => rfl
  | cons c src ih =>
    by_cases hc : c = any
    · subst hc
      rw [wildItems_cons hesc, wildItem, if_pos rfl, wildRun_any_any, ih, dropWhile_cons_of_pos (by simp)]
    · rw [dropWhile_cons_of_neg (by simpa using hc)]
      rfl

theorem wildRun_star (hesc : any ≠ escape) (prev : Option UInt8) (dst : List UInt8) {src src' : List UInt8}
    (hsrc : src.dropWhile (· = any) = src') : wildRun any one escape prev (wildItems any one escape (any :: src)) dst =
      if deref src' ≠ one then
        match strchr dst (deref src') with
        | none => some false
        | some dst => wildRun any one escape (some any) (wildItems any one escape src') dst
      else wildRun any one escape (some any) (wildItems any one escape src') dst := by
  have hhead := head?_dropWhile_not (· = any) src
  rw [wildItems_cons hesc, wildItem, if_pos rfl, wildRun_skipAnys hesc, hsrc]
  rw [hsrc] at hhead
  cases src' with
  | nil => simp [wildRun, seek, deref, strchr]
  | cons c src =>
    have hseek : seek one escape (wildItems any one escape (c :: src)) dst =
        if c = one then some dst else strchr dst c := by
      have hc : c ≠ any := by simpa using hhead
      by_cases hesc : c = escape
      · subst hesc
        cases src <;> simp [wildItems, seek]
      · rw [wildItems_cons hesc, wildItem, if_neg hc]
        by_cases hone : c = one
        all_goals simp [hone, seek]
    rw [wildRun, hseek]
    by_cases hone : c = one
    all_goals simp [hone, deref]

theorem wildLoop_eq_run (prev : Option UInt8) (dst src : List UInt8) : wildLoop any one escape prev dst src =
      wildRun any one escape prev (wildItems any one escape src) dst := by
  fun_induction wildLoop any one escape prev dst src with
  | case1 => rfl
  | case2 prev dst hdst => simp [wildRun, hdst]
  | case3 prev d dst c src hne => simp [wildRun, hne]
  | case4 prev d dst c src heq ih => simp [wildRun, not_not.1 heq, ih]
  | case5 => simp [wildItems, wildRun]
  | case6 prev dst src hcons hnil =>
    cases dst with
    | nil =>
      cases src with
      | nil => exact absurd rfl (hnil rfl)
      | cons c src => simp [wildRun]
    | cons d dst =>
      cases src with
      | nil => simp [wildItems, wildRun]
      | cons c src => exact absurd rfl (hcons _ _ _ _ rfl)
  | case7 prev dst src src' hone hchr hesc =>
    rw [wildRun_star hesc _ _ rfl, if_pos hone, hchr]
  | case8 prev dst src src' hone dst' hchr hesc ih =>
    rw [wildRun_star hesc _ _ rfl, if_pos hone, hchr, ih]
  | case9 prev dst src src' hone hesc ih =>
    rw [wildRun_star hesc _ _ rfl, if_neg hone, ih]
  | case10 prev src d dst rest hesc hany ih =>
    rw [ih, wildRun_skipOnes hany hesc, wildItems_cons hesc, wildItem, if_neg hany, if_pos rfl, wildRun]
  | case11 prev c src hesc hany d dst hone hne =>
    rw [wildItems_cons hesc, wildItem, if_neg hany, if_neg hone, wildRun, if_neg hne]
  | case12 prev c src hesc hany d dst hone heq ih =>
    rw [wildItems_cons hesc, wildItem, if_neg hany, if_neg hone, wildRun, if_pos (not_not.1 heq), ih]
  | case13 prev c src hesc hany =>
    rw [wildItems_cons hesc, wildItem]
    split_ifs <;> rfl

def WildItem.Ok (any one escape : UInt8) : WildItem → Prop
  | .any => any ≠ escape
  | .one => one ≠ any
  | .lit c => c ≠ 0 ∧ c ≠ any
  | .esc c => c ≠ 0 ∧ escape ≠ 0
  | .lone => escape ≠ 0

theorem ok_wildItem (h0 : c ≠ 0) (hc : c ≠ escape) : (wildItem any one c).Ok any one escape := by
  unfold wildItem
  split_ifs with hany hone
  · exact hany ▸ hc
  · exact hone ▸ hany
  · exact ⟨h0, hany⟩

theorem ok_wildItems {src : List UInt8} (h0 : 0 ∉ src) : ∀ i ∈ wildItems any one escape src, i.Ok any one escape := by
  fun_induction wildItems any one escape src with
  | case1 => simp
  | case2 c =>
    have hc : c ≠ 0 := fun h => h0 (by simp [h])
    intro i hi
    rw [mem_singleton.1 hi]
    split_ifs with hesc
    · exact hesc ▸ hc
    · exact ok_wildItem hc hesc
  | case3 d src ih =>
    simp only [mem_cons, not_or] at h0
    exact forall_mem_cons.2 ⟨⟨Ne.symm h0.2.1, Ne.symm h0.1⟩, ih h0.2.2⟩
  | case4 c d src hesc ih =>
    simp only [mem_cons, not_or] at h0 ih
    exact forall_mem_cons.2 ⟨ok_wildItem (Ne.symm h0.1) hesc, ih h0.2⟩

section Right
/-- The result `r` is there and says whether `P` holds. -/
def Right (r : Option Bool) (P : Prop) : Prop := ∃ b, r = some b ∧ (b = true ↔ P)

@[simp] theorem right_some {b : Bool} : Right (some b) P ↔ (b = true ↔ P) := by
  simp [Right]

@[simp] theorem not_right_none : ¬Right none P := by simp [Right]

/-- A pattern after a star, for which the first occurrence will do: each segment between two stars
is a literal and any number of `one`, or only those, and the pattern ends in a star. `inside` says
that the segment has begun. -/
def okStar (one escape : UInt8) : Bool → List WildItem → Bool
  | inside, [] => !inside
  | _, .any :: p => okStar one escape false p
  | _, .one :: p => okStar one escape true p
  | false, .lit _ :: p => okStar one escape true p
  -- `strchr` looks for the escape character itself
  | false, .esc c :: p => c = escape && escape ≠ one && okStar one escape true p
  | _, _ => false

/-- A pattern that `s13_wildcmp` compares rightly with every string. It is not empty, it has nothing
but its first segment and does not end in an escaped `any`, or it goes on as after a star. -/
def okPattern (any one escape : UInt8) : Option UInt8 → List WildItem → Bool
  | prev, [] => prev.any (· ≠ any)
  | _, .any :: p => okStar one escape false p
  | _, .one :: p => okPattern any one escape (some one) p
  | _, .lit c :: p => okPattern any one escape (some c) p
  | _, .esc c :: p => okPattern any one escape (some c) p
  | _, .lone :: _ => false

variable {p : List WildItem} {dst w : List UInt8} {prev : Option UInt8} {c d : UInt8} {i : WildItem}

@[simp] theorem itemsMatch_nil : ItemsMatch escape [] dst ↔ dst = [] := Iff.rfl

@[simp] theorem itemsMatch_one_cons :
    ItemsMatch escape (.one :: p) (d :: dst) ↔ ItemsMatch escape p dst := Glob.matches_one_cons

@[simp] theorem not_itemsMatch_one_nil : ¬ItemsMatch escape (.one :: p) [] := Glob.matches_one_nil

@[simp] theorem itemsMatch_lit_cons : ItemsMatch escape (.lit c :: p) (d :: dst) ↔ d = c ∧ ItemsMatch escape p dst :=
  Glob.matches_char_cons

@[simp] theorem not_itemsMatch_lit_nil : ¬ItemsMatch escape (.lit c :: p) [] :=
  Glob.matches_char_nil

@[simp] theorem itemsMatch_esc_cons : ItemsMatch escape (.esc c :: p) (d :: dst) ↔ d = c ∧ ItemsMatch escape p dst :=
  Glob.matches_char_cons

@[simp] theorem not_itemsMatch_esc_nil : ¬ItemsMatch escape (.esc c :: p) [] :=
  Glob.matches_char_nil

theorem itemsMatch_any_any : ItemsMatch escape (.any :: .any :: p) dst ↔ ItemsMatch escape (.any :: p) dst :=
  Glob.matches_any_any

theorem itemsMatch_any_opens (hp : Glob.Opens (p.map (WildItem.glob escape)) = true) :
    ItemsMatch escape (.any :: p) dst ↔ ItemsMatch escape p dst :=
  ⟨fun ⟨_, ht, h⟩ => Glob.matches_of_suffix hp ht h, fun h => ⟨dst, suffix_refl dst, h⟩⟩

theorem opens_of_okStar (h : okStar one escape true p = true) : Glob.Opens (p.map (WildItem.glob escape)) = true := by
  induction p with
  | nil => simp [okStar] at h
  | cons i p ih =>
    cases i with
    | any => rfl
    | one => exact ih h
    | lit | esc | lone => simp [okStar] at h

/-- After a star, item `i` is looked for as the character `c`. -/
def Seeks (one escape : UInt8) (i : WildItem) (c : UInt8) : Prop :=
  c ≠ 0 ∧ (i = .lit c ∨ i = .esc c ∧ c = escape ∧ escape ≠ one)

theorem Seeks.run (h : Seeks one escape i c) (prev : Option UInt8) :
    wildRun any one escape prev (.any :: i :: p) dst = match dst.dropWhile (· ≠ c) with
      | [] => some false
      | _ :: dst => wildRun any one escape (some c) p dst := by
  obtain ⟨h0, hi⟩ := h
  have hhead := head?_dropWhile_not (· ≠ c) dst
  have hseek : seek one escape (i :: p) dst = strchr dst c := by
    rcases hi with rfl | ⟨rfl, rfl, hne⟩
    · rfl
    · simp [seek, hne]
  rw [wildRun, hseek, strchr, if_neg h0]
  cases hdrop : dst.dropWhile (· ≠ c) with
  | nil => rfl
  | cons d u =>
    rw [hdrop] at hhead
    obtain rfl : d = c := by simpa using hhead
    rcases hi with rfl | ⟨rfl, -, -⟩ <;> simp [wildRun]

theorem Seeks.matches_iff (h : Seeks one escape i c)
    (hp : Glob.Opens (p.map (WildItem.glob escape)) = true) : ItemsMatch escape (.any :: i :: p) dst ↔
      ∃ u, dst.dropWhile (· ≠ c) = c :: u ∧ ItemsMatch escape p u := by
  have hi : i.glob escape = .char c := by
    rcases h.2 with rfl | ⟨rfl, -, -⟩ <;> rfl
  simp only [ItemsMatch, map_cons, hi]
  exact Glob.matches_any_char hp

theorem right_of_okStar (hp : ∀ i ∈ p, i.Ok any one escape) (prev : Option UInt8)
    (dst : List UInt8) : (okStar one escape false p = true →
      Right (wildRun any one escape prev (.any :: p) dst) (ItemsMatch escape (.any :: p) dst)) ∧
    (okStar one escape true p = true → Right (wildRun any one escape prev p dst) (ItemsMatch escape p dst)) := by
  induction p generalizing prev dst with
  | nil =>
    have hall : ItemsMatch escape [.any] dst := ⟨[], nil_suffix, rfl⟩
    exact ⟨fun _ => by simpa [wildRun, seek] using hall, by simp [okStar]⟩
  | cons i p ih =>
    obtain ⟨hi, htail⟩ := forall_mem_cons.1 hp
    have ih := ih htail
    -- a character to look for
    have hseek : ∀ c, Seeks one escape i c → okStar one escape true p = true →
        Right (wildRun any one escape prev (.any :: i :: p) dst) (ItemsMatch escape (.any :: i :: p) dst) := by
      intro c hc hok
      rw [hc.run, hc.matches_iff (opens_of_okStar hok)]
      have hhead := head?_dropWhile_not (· ≠ c) dst
      cases hdrop : dst.dropWhile (· ≠ c) with
      | nil => simp
      | cons d u =>
        rw [hdrop] at hhead
        obtain rfl : d = c := by simpa using hhead
        simpa using (ih (some d) u).2 hok
    cases i with
    | any =>
      refine ⟨fun hok => ?_, fun hok => (ih prev dst).1 hok⟩
      rw [itemsMatch_any_any]
      exact (ih (some any) dst).1 hok
    | one =>
      have hin : ∀ prev, okStar one escape true p = true →
          Right (wildRun any one escape prev (.one :: p) dst) (ItemsMatch escape (.one :: p) dst) := by
        intro prev hok
        cases dst with
        | nil => simp [wildRun]
        | cons d dst => simpa [wildRun] using (ih (some one) dst).2 hok
      refine ⟨fun hok => ?_, hin prev⟩
      rw [itemsMatch_any_opens (opens_of_okStar (show okStar one escape true (.one :: p) = true from hok))]
      exact hin (some any) hok
    | lit c => exact ⟨hseek c ⟨hi.1, .inl rfl⟩, by simp [okStar]⟩
    | esc c =>
      refine ⟨fun hok => ?_, by simp [okStar]⟩
      simp only [okStar, Bool.and_eq_true, decide_eq_true_eq] at hok
      exact hseek c ⟨hi.1, .inr ⟨rfl, hok.1.1, hok.1.2⟩⟩ hok.2
    | lone => simp [okStar]

theorem right_of_okPattern (hp : ∀ i ∈ p, i.Ok any one escape)
    (hok : okPattern any one escape prev p = true) (dst : List UInt8) :
    Right (wildRun any one escape prev p dst) (ItemsMatch escape p dst) := by
  induction p generalizing prev dst with
  | nil =>
    cases dst with
    | nil => simp [wildRun]
    | cons d dst =>
      cases prev with
      | none => simp [okPattern] at hok
      | some c => simpa [wildRun, okPattern] using hok
  | cons i p ih =>
    have htail := fun j hj => hp j (mem_cons_of_mem i hj)
    cases i with
    | any => exact (right_of_okStar htail prev dst).1 hok
    | one =>
      cases dst with
      | nil => simp [wildRun]
      | cons d dst => simpa [wildRun] using ih htail hok dst
    | lit c | esc c =>
      cases dst with
      | nil => simp [wildRun]
      | cons d dst =>
        by_cases hdc : d = c
        · simpa [wildRun, hdc] using ih htail hok dst
        · simp [wildRun, hdc]
    | lone => simp [okPattern] at hok

/-! For every other pattern there is a string that is compared wrongly. -/

/-- A string that is compared wrongly, whatever comes before the pattern. -/
def Wrong (any one escape : UInt8) (p : List WildItem) : Prop :=
  ∃ dst, 0 ∉ dst ∧ ∀ prev, ¬Right (wildRun any one escape prev p dst) (ItemsMatch escape p dst)

theorem exists_ne (c : UInt8) : ∃ z : UInt8, z ≠ 0 ∧ z ≠ c := by
  by_cases h : c = 1
  · exact ⟨2, by decide, by subst h; decide⟩
  · exact ⟨1, by decide, Ne.symm h⟩

section
variable (hp : ∀ i ∈ p, i.Ok any one escape)
include hp

theorem zero_notMem_sample : 0 ∉ Glob.sample 1 (p.map (WildItem.glob escape)) := by
  induction p with
  | nil => simp [Glob.sample]
  | cons i p ih =>
    obtain ⟨hi, htail⟩ := forall_mem_cons.1 hp
    have ih := ih htail
    cases i with
    | any => exact ih
    | one => simp [WildItem.glob, Glob.sample, ih]
    | lit | esc => simp [WildItem.glob, Glob.sample, ih, Ne.symm hi.1]
    | lone => simp [WildItem.glob, Glob.sample, ih, Ne.symm (show escape ≠ 0 from hi)]

/-- In a segment that does not end in a star after `one` items, the comparison can be led to fail
whatever comes later. -/
theorem exists_stuck (hopens : Glob.Opens (p.map (WildItem.glob escape)) = false) (hc : c ≠ any) :
    ∃ v, 0 ∉ v ∧ ∀ w, wildRun any one escape (some c) p (v ++ w) = some false := by
  induction p generalizing c with
  | nil => exact ⟨[1], by decide, fun w => by simp [wildRun, hc]⟩
  | cons i p ih =>
    cases i with
    | any => simp [Glob.Opens, WildItem.glob] at hopens
    | one =>
      obtain ⟨hi, htail⟩ := forall_mem_cons.1 hp
      obtain ⟨v, hv, hrun⟩ := ih htail hopens hi
      exact ⟨1 :: v, by simpa using hv, fun w => by simpa [wildRun] using hrun w⟩
    | lit d | esc d =>
      obtain ⟨z, hz, hne⟩ := exists_ne d
      exact ⟨[z], by simpa using hz.symm, fun w => by simp [wildRun, hne]⟩
    | lone => exact ⟨[1], by decide, fun w => by simp [wildRun]⟩

theorem exists_wrong_of_false (hw : 0 ∉ w)
    (h : ∀ prev v, wildRun any one escape prev (.any :: p) (w ++ v) = some false) :
    Wrong any one escape (.any :: p) := by
  refine ⟨w ++ Glob.sample 1 (p.map (WildItem.glob escape)), ?_, fun prev hright => ?_⟩
  · simpa [hw] using zero_notMem_sample hp
  · rw [h, right_some] at hright
    exact absurd (hright.2 ⟨_, suffix_append _ _, Glob.matches_sample 1 _⟩) (by decide)

end

theorem Seeks.exists_wrong (h : Seeks one escape i c) (hc : c ≠ any)
    (hi : i.Ok any one escape) (hp : ∀ i ∈ p, i.Ok any one escape)
    (ih : Glob.Opens (p.map (WildItem.glob escape)) = true → Wrong any one escape p) :
    Wrong any one escape (.any :: i :: p) := by
  cases hopens : Glob.Opens (p.map (WildItem.glob escape)) with
  | true =>
    obtain ⟨dst, h0, hwrong⟩ := ih hopens
    refine ⟨c :: dst, by simpa [h0] using h.1.symm, fun prev hright => ?_⟩
    rw [h.run, h.matches_iff hopens] at hright
    exact hwrong (some c) (by simpa using hright)
  | false =>
    obtain ⟨v, h0, hstuck⟩ := exists_stuck hp hopens hc
    refine exists_wrong_of_false (w := c :: v) (by simpa [hi] using hp) (by simpa [h0] using h.1.symm)
      fun prev w => ?_
    rw [h.run]
    simpa using hstuck w

theorem exists_wrong_esc (hp : ∀ i ∈ .esc c :: p, i.Ok any one escape) (hseek : ¬(c = escape ∧ escape ≠ one)) :
    Wrong any one escape (.any :: .esc c :: p) := by
  have hi := hp (.esc c) mem_cons_self
  obtain ⟨z, hz, hne⟩ := exists_ne c
  refine exists_wrong_of_false (w := [z]) hp (by simpa using hz.symm) fun prev w => ?_
  by_cases hone : escape = one
  · simp [wildRun, seek, hone, hne]
  · have hce : escape ≠ c := fun h => hseek ⟨h.symm, hone⟩
    have hhead := head?_dropWhile_not (· ≠ escape) ([z] ++ w)
    simp only [wildRun, seek, if_neg hone, strchr, if_neg hi.2]
    cases hdrop : ([z] ++ w).dropWhile (· ≠ escape) with
    | nil => rfl
    | cons d u =>
      rw [hdrop] at hhead
      obtain rfl : d = escape := by simpa using hhead
      simp [wildRun, hce]

theorem exists_wrong_of_okStar (hany : any ≠ escape) (hp : ∀ i ∈ p, i.Ok any one escape) :
    (okStar one escape false p = false → Wrong any one escape (.any :: p)) ∧
    (okStar one escape true p = false → Glob.Opens (p.map (WildItem.glob escape)) = true → Wrong any one escape p) := by
  induction p with
  | nil => simp [okStar, Glob.Opens]
  | cons i p ih =>
    obtain ⟨hi, htail⟩ := forall_mem_cons.1 hp
    have ih := ih htail
    cases i with
    | any =>
      refine ⟨fun hok => ?_, fun hok _ => ih.1 hok⟩
      obtain ⟨dst, h0, hwrong⟩ := ih.1 hok
      refine ⟨dst, h0, fun prev => ?_⟩
      rw [itemsMatch_any_any]
      exact hwrong (some any)
    | one =>
      have hin (hok : okStar one escape true p = false) (hopens : Glob.Opens (p.map (WildItem.glob escape)) = true) :
          Wrong any one escape (.one :: p) := by
        obtain ⟨dst, h0, hwrong⟩ := ih.2 hok hopens
        exact ⟨1 :: dst, by simpa using h0, fun prev => by simpa [wildRun] using hwrong (some one)⟩
      refine ⟨fun hok => ?_, hin⟩
      cases hopens : Glob.Opens (p.map (WildItem.glob escape)) with
      | true =>
        obtain ⟨dst, h0, hwrong⟩ := hin hok hopens
        refine ⟨dst, h0, fun prev => ?_⟩
        rw [itemsMatch_any_opens (p := .one :: p) hopens]
        exact hwrong (some any)
      | false =>
        obtain ⟨v, h0, hstuck⟩ := exists_stuck htail hopens (show one ≠ any from hi)
        exact exists_wrong_of_false (w := 1 :: v) hp (by simpa using h0) fun prev w => hstuck w
    | lit c =>
      refine ⟨fun hok => ?_, fun _ h => by simp [Glob.Opens, WildItem.glob] at h⟩
      exact Seeks.exists_wrong ⟨hi.1, .inl rfl⟩ hi.2 hi htail (ih.2 hok)
    | esc c =>
      refine ⟨fun hok => ?_, fun _ h => by simp [Glob.Opens, WildItem.glob] at h⟩
      by_cases hseek : c = escape ∧ escape ≠ one
      · refine Seeks.exists_wrong ⟨hi.1, .inr ⟨rfl, hseek⟩⟩ (hseek.1 ▸ hany.symm) hi htail (ih.2 ?_)
        simpa [okStar, hseek.1, hseek.2] using hok
      · exact exists_wrong_esc hp hseek
    | lone =>
      refine ⟨fun _ => ?_, fun _ h => by simp [Glob.Opens, WildItem.glob] at h⟩
      have h0 : escape ≠ 0 := hi
      refine exists_wrong_of_false (w := [escape]) hp (by simpa using h0.symm) fun prev w => ?_
      by_cases hone : escape = one
      · simp [wildRun, seek, hone]
      · simp [wildRun, seek, hone, strchr, h0]

theorem exists_wrong_of_okPattern (hp : ∀ i ∈ p, i.Ok any one escape) (hok : okPattern any one escape prev p = false) :
    ∃ dst, 0 ∉ dst ∧ ¬Right (wildRun any one escape prev p dst) (ItemsMatch escape p dst) := by
  induction p generalizing prev with
  | nil =>
    refine ⟨[1], by decide, ?_⟩
    cases prev with
    | none => simp [wildRun]
    | some c => simpa [wildRun, okPattern] using hok
  | cons i p ih =>
    obtain ⟨hi, htail⟩ := forall_mem_cons.1 hp
    cases i with
    | any =>
      obtain ⟨dst, h0, hwrong⟩ := (exists_wrong_of_okStar hi htail).1 hok
      exact ⟨dst, h0, hwrong prev⟩
    | one =>
      obtain ⟨dst, h0, hwrong⟩ := ih htail hok
      exact ⟨1 :: dst, by simpa using h0, by simpa [wildRun] using hwrong⟩
    | lit c | esc c =>
      obtain ⟨dst, h0, hwrong⟩ := ih htail hok
      exact ⟨c :: dst, by simpa [h0] using hi.1.symm, by simpa [wildRun] using hwrong⟩
    | lone => exact ⟨[], by simp, by simp [wildRun]⟩

end Right

def WildOk (any one escape : UInt8) (src : CStr) : Prop :=
  okPattern any one escape none (wildItems any one escape src.bytes) = true

theorem right_iff_wildOk (any one escape : UInt8) (src : CStr) :
    (∀ dst, Right (s13Wildcmp dst src any one escape) (InGlob any one escape dst src)) ↔ WildOk any one escape src := by
  have hok : ∀ i ∈ wildItems any one escape src.bytes, i.Ok any one escape :=
    ok_wildItems src.no_nul
  constructor
  · intro h
    by_contra hbad
    obtain ⟨dst, h0, hwrong⟩ := exists_wrong_of_okPattern hok (by simpa [WildOk] using hbad)
    refine hwrong ?_
    have hdst := h ⟨dst, h0⟩
    rwa [s13Wildcmp, wildLoop_eq_run] at hdst
  · intro h dst
    rw [s13Wildcmp, wildLoop_eq_run]
    exact right_of_okPattern hok h dst.bytes

/-- `s13_wildcmp` and its copy report a match for exactly the strings of the glob language of a
pattern if and only if the first occurrence of what follows a star is good enough everywhere in the
pattern. -/
theorem wildcmp_right_iff (any one escape : UInt8) (src : CStr) :
    (∀ dst, Right (s13Wildcmp dst src any one escape) (InGlob any one escape dst src) ∧
      Right (wildcmp dst src any one escape) (InGlob any one escape dst src)) ↔ WildOk any one escape src := by
  rw [← right_iff_wildOk]
  exact ⟨fun h dst => (h dst).1, fun h dst => ⟨h dst, h dst⟩⟩

/-- `aab` is not found by `*ab`, with the characters that `ddlus` uses. -/
theorem s13Wildcmp_aab : s13Wildcmp ⟨[97, 97, 98], by decide⟩ ⟨[42, 97, 98], by decide⟩ 42 63 92 =
    some false ∧ InGlob 42 63 92 ⟨[97, 97, 98], by decide⟩ ⟨[42, 97, 98], by decide⟩ := by
  constructor
  · rw [s13Wildcmp, wildLoop_eq_run]
    decide
  · unfold InGlob ItemsMatch
    decide

end Prj.Lib13
