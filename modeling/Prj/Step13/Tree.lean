import Mathlib.Data.List.Nodup
import Prj.Step13.Path

/-! The files and directories of a source tree, and the part of them that a walk comes to. -/
namespace Prj.Step13
open List

def slash (base name : Path) : Path :=
  if base.getLast? = some dirSep then base ++ name else base ++ dirSep :: name

structure Proper (driveSep : Option UInt8) (name : Path) : Prop where
  ne_nil : name ≠ []
  dirSep_notMem : dirSep ∉ name
  driveSep_notMem : ∀ sep ∈ driveSep, sep ∉ name
  ne_thisDir : name ≠ thisDir
  ne_prevDir : name ≠ prevDir

namespace Dir

def names : Dir → List Path
  | .nil => []
  | .file name rest | .dir name _ rest | .other name rest => name :: rest.names

/-- The entries `.` and `..`, which `enum_dir` passes over, are left out. -/
def WellFormed (driveSep : Option UInt8) : Dir → Prop
  | .nil => True
  | .file name rest | .other name rest =>
    Proper driveSep name ∧ name ∉ rest.names ∧ rest.WellFormed driveSep
  | .dir name sub rest =>
    Proper driveSep name ∧ name ∉ rest.names ∧ sub.WellFormed driveSep ∧ rest.WellFormed driveSep

/-- No directory has the name of the program's own one. -/
def NoStep13Dir : Dir → Prop
  | .nil => True
  | .file _ rest | .other _ rest => rest.NoStep13Dir
  | .dir name sub rest => name ≠ step13Dir ∧ sub.NoStep13Dir ∧ rest.NoStep13Dir

def paths (base : Path) : Dir → List Path
  | .nil => []
  | .other _ rest => rest.paths base
  | .file name rest => rest.paths base ++ [slash base name]
  | .dir name sub rest => rest.paths base ++ slash base name :: sub.paths (slash base name)

/-- The file or directory `v` is below `base`, and not in a directory with the name of the program's own one. -/
def Holds (base : Path) (v : Visit) : Dir → Prop
  | .nil => False
  | .other _ rest => rest.Holds base v
  | .file name rest => v = ⟨slash base name, .file⟩ ∨ rest.Holds base v
  | .dir name sub rest =>
    (name ≠ step13Dir ∧ (v = ⟨slash base name, .dir⟩ ∨ sub.Holds (slash base name) v)) ∨ rest.Holds base v

end Dir

/-- A file or directory of the source, and the path under the root that it is compared with. -/
structure Entry where
  source : Path
  target : Path
  kind : Kind
  deriving DecidableEq, Repr

def Entry.visit (e : Entry) : Visit := ⟨e.source, e.kind⟩

/-- The files and directories below `source`, with their counterparts below `target`. -/
def Dir.entries (source target : Path) : Dir → List Entry
  | .nil => []
  | .other _ rest => rest.entries source target
  | .file name rest => rest.entries source target ++ [⟨slash source name, slash target name, .file⟩]
  | .dir name sub rest =>
    rest.entries source target ++
      ⟨slash source name, slash target name, .dir⟩ :: sub.entries (slash source name) (slash target name)

section Names
variable {driveSep : Option UInt8} {base name name' p tail : Path} {d : Dir} {q : Path}

def lead (base : Path) : Path := if base.getLast? = some dirSep then base else base ++ [dirSep]

theorem slash_eq (base name : Path) : slash base name = lead base ++ name := by
  unfold slash lead
  split <;> simp

/-- The path is `name` in `base`, or below it. -/
def Below (base name p : Path) : Prop :=
  ∃ tail, p = lead base ++ name ++ tail ∧ ∀ c ∈ tail.head?, c = dirSep

theorem below_slash : Below base name (slash base name) :=
  ⟨[], by rw [slash_eq, append_nil], by simp⟩

/-- The path `q` is `p`, or a directory that `p` is in. -/
def Above (q p : Path) : Prop := ∃ tail, p = q ++ tail ∧ ∀ c ∈ tail.head?, c = dirSep

theorem Above.length_le (h : Above q p) : q.length ≤ p.length := by
  obtain ⟨tail, rfl, -⟩ := h
  simp

theorem Below.of_above (h : Below base name q) (habove : Above q p) : Below base name p := by
  obtain ⟨tail, rfl, htail⟩ := h
  obtain ⟨tail', rfl, htail'⟩ := habove
  refine ⟨tail ++ tail', append_assoc .., ?_⟩
  cases tail with
  | nil => exact htail'
  | cons c tail => exact htail

section
variable (hname : name ≠ []) (hsep : dirSep ∉ name)
include hname hsep

theorem lead_slash : lead (slash base name) = slash base name ++ [dirSep] := by
  have hlast : (slash base name).getLast? ≠ some dirSep := by
    rw [slash_eq, getLast?_append_of_ne_nil _ hname]
    intro h
    exact hsep (mem_of_getLast? h)
  rw [lead, if_neg hlast]

theorem Below.of_slash (h : Below (slash base name) name' p) : Below base name p := by
  obtain ⟨tail, rfl, -⟩ := h
  refine ⟨dirSep :: (name' ++ tail), ?_, by simp⟩
  rw [lead_slash hname hsep, slash_eq]
  simp

theorem length_lt_of_below (h : Below (slash base name) name' p) : (slash base name).length < p.length := by
  obtain ⟨tail, rfl, -⟩ := h
  rw [lead_slash hname hsep]
  simp

end

theorem takeWhile_append_tail (hsep : dirSep ∉ name) (htail : ∀ c ∈ tail.head?, c = dirSep) :
    (name ++ tail).takeWhile (· ≠ dirSep) = name := by
  have hall : ∀ c ∈ name, decide (c ≠ dirSep) = true := fun c hc => decide_eq_true fun heq => hsep (heq ▸ hc)
  rw [takeWhile_append_of_pos hall]
  cases tail with
  | nil => simp
  | cons c tail =>
    have hc : c = dirSep := htail c rfl
    simp [hc]

theorem Below.name_eq (hsep : dirSep ∉ name) (hsep' : dirSep ∉ name') (h : Below base name p)
    (h' : Below base name' p) : name = name' := by
  obtain ⟨tail, rfl, htail⟩ := h
  obtain ⟨tail', heq, htail'⟩ := h'
  rw [append_assoc, append_assoc] at heq
  have hrest := append_cancel_left heq
  rw [← takeWhile_append_tail hsep htail, hrest, takeWhile_append_tail hsep' htail']

section
variable (hwf : d.WellFormed driveSep)
include hwf

theorem Dir.exists_below (h : p ∈ d.paths base) : ∃ name ∈ d.names, Proper driveSep name ∧ Below base name p := by
  induction d generalizing base with
  | nil => cases h
  | other name rest ih =>
    exact exists_mem_cons_of_exists (ih hwf.2.2 h)
  | file name rest ih =>
    rcases mem_append.1 h with h | h
    · exact exists_mem_cons_of_exists (ih hwf.2.2 h)
    · rw [mem_singleton] at h
      exact ⟨name, mem_cons_self, hwf.1, h ▸ below_slash⟩
  | dir name sub rest ihsub ihrest =>
    rcases mem_append.1 h with h | h
    · exact exists_mem_cons_of_exists (ihrest hwf.2.2.2 h)
    · refine ⟨name, mem_cons_self, hwf.1, ?_⟩
      rcases mem_cons.1 h with rfl | h
      · exact below_slash
      · obtain ⟨n, -, -, hbelow⟩ := ihsub hwf.2.2.1 h
        exact hbelow.of_slash hwf.1.ne_nil hwf.1.dirSep_notMem

theorem Dir.notMem_paths (hname : name ∉ d.names) (hsep : dirSep ∉ name)
    (h : Below base name p) : p ∉ d.paths base := by
  intro hp
  obtain ⟨n, hn, hproper, hbelow⟩ := exists_below hwf hp
  exact hname (h.name_eq hsep hproper.dirSep_notMem hbelow ▸ hn)

/-- No path is followed by itself or by a directory that it is in. -/
theorem Dir.pairwise_paths (base : Path) : (d.paths base).Pairwise fun p q => ¬Above q p := by
  induction d generalizing base with
  | nil => exact .nil
  | other name rest ih => exact ih hwf.2.2 base
  | file name rest ih =>
    refine pairwise_append.2 ⟨ih hwf.2.2 base, pairwise_singleton _ _, fun p hp q hq habove => ?_⟩
    obtain rfl := mem_singleton.1 hq
    exact notMem_paths hwf.2.2 hwf.2.1 hwf.1.dirSep_notMem (below_slash.of_above habove) hp
  | dir name sub rest ihsub ihrest =>
    have hbelow : ∀ p ∈ slash base name :: sub.paths (slash base name), Below base name p := by
      rw [forall_mem_cons]
      refine ⟨below_slash, fun p hp => ?_⟩
      obtain ⟨n, -, -, hbelow⟩ := exists_below hwf.2.2.1 hp
      exact hbelow.of_slash hwf.1.ne_nil hwf.1.dirSep_notMem
    refine pairwise_append.2 ⟨ihrest hwf.2.2.2 base, .cons ?_ (ihsub hwf.2.2.1 _), fun p hp q hq habove => ?_⟩
    · intro q hq habove
      obtain ⟨n, -, -, htail⟩ := exists_below hwf.2.2.1 hq
      exact length_lt_of_below hwf.1.ne_nil hwf.1.dirSep_notMem htail |>.not_ge habove.length_le
    · exact notMem_paths hwf.2.2.2 hwf.2.1 hwf.1.dirSep_notMem ((hbelow q hq).of_above habove) hp

theorem Dir.nodup_paths (base : Path) : (d.paths base).Nodup := by
  refine (pairwise_paths hwf base).imp ?_
  rintro p _ h rfl
  exact h ⟨[], (append_nil p).symm, by simp⟩

end

theorem Dir.map_entries (d : Dir) (source target : Path) : (d.entries source target).map Entry.source = d.paths source ∧
    (d.entries source target).map Entry.target = d.paths target := by
  induction d generalizing source target with
  | nil => exact ⟨rfl, rfl⟩
  | other name rest ih => exact ih source target
  | file name rest ih => simp [entries, paths, ih]
  | dir name sub rest ihsub ihrest => simp [entries, paths, ihsub, ihrest]

end Names

section Walk
variable {driveSep : Option UInt8} {base name : Path} {d : Dir} {p : Path}

def Absolute (driveSep : Option UInt8) (base : Path) : Prop :=
  (getUnixPath driveSep base).head? = some dirSep

theorem getUnixPath_of_notMem (h : ∀ sep ∈ driveSep, sep ∉ p) : getUnixPath driveSep p = p := by
  cases driveSep with
  | none => rfl
  | some sep =>
    have hdrop : p.dropWhile (· ≠ sep) = [] :=
      dropWhile_eq_nil_iff.2 fun c hc => decide_eq_true fun heq => h sep rfl (heq ▸ hc)
    simp only [getUnixPath, hdrop]

theorem getUnixPath_append {sep : UInt8} (h : sep ∈ p) (q : Path) :
    getUnixPath (some sep) (p ++ q) = getUnixPath (some sep) p ++ q := by
  have hne : p.dropWhile (· ≠ sep) ≠ [] := by
    rw [ne_eq, dropWhile_eq_nil_iff]
    intro hall
    exact absurd (hall sep h) (by simp)
  have happend : (p ++ q).dropWhile (· ≠ sep) = p.dropWhile (· ≠ sep) ++ q := by
    rw [dropWhile_append, if_neg (by simpa using hne)]
  cases hdrop : p.dropWhile (· ≠ sep) with
  | nil => exact absurd hdrop hne
  | cons c rest => simp only [getUnixPath, happend, hdrop, cons_append]

theorem Absolute.slash (hbase : Absolute driveSep base) (hname : Proper driveSep name) :
    Absolute driveSep (slash base name) := by
  unfold Absolute at hbase ⊢
  have hhead : ∀ {p q : Path}, p.head? = some dirSep → (p ++ q).head? = some dirSep := by
    intro p q hp
    rw [head?_append, hp, Option.some_or]
  obtain ⟨q, hq, hnotMem⟩ : ∃ q, Step13.slash base name = base ++ q ∧ ∀ sep ∈ driveSep, sep ≠ dirSep → sep ∉ q := by
    unfold Step13.slash
    split
    · exact ⟨name, rfl, fun sep hsep _ => hname.driveSep_notMem sep hsep⟩
    · refine ⟨dirSep :: name, rfl, fun sep hsep hne hmem => ?_⟩
      rcases mem_cons.1 hmem with h | h
      · exact hne h
      · exact hname.driveSep_notMem sep hsep h
  rw [hq]
  cases driveSep with
  | none => exact hhead hbase
  | some sep =>
    by_cases hmem : sep ∈ base
    · rw [getUnixPath_append hmem]
      exact hhead hbase
    · rw [getUnixPath_of_notMem (by simpa using hmem)] at hbase
      have hne : sep ≠ dirSep := by
        rintro rfl
        exact hmem (mem_of_mem_head? hbase)
      rw [getUnixPath_of_notMem (by simpa [hmem] using hnotMem sep rfl hne)]
      exact hhead hbase

theorem take_ne_of_absolute (hbase : Absolute driveSep base) (hname : Proper driveSep name) :
    (getUnixPath driveSep base).take (min (getUnixPath driveSep base).length name.length) ≠
      name.take (min (getUnixPath driveSep base).length name.length) := by
  intro heq
  unfold Absolute at hbase
  cases hb : getUnixPath driveSep base with
  | nil =>
    rw [hb] at hbase
    cases hbase
  | cons b bs =>
    cases hc : name with
    | nil => exact hname.ne_nil hc
    | cons c cs =>
      rw [hb, hc, length_cons, length_cons, Nat.succ_min_succ] at heq
      obtain ⟨rfl, -⟩ := List.cons.inj heq
      rw [hb] at hbase
      exact hname.dirSep_notMem (mem_of_mem_head? (hc ▸ hbase))

theorem joinPath_eq_slash (hname : Proper driveSep name) (hlen : (slash base name).length < maxPathname) :
    joinPath driveSep base name = slash base name := by
  have hunix : getUnixPath driveSep name = name := getUnixPath_of_notMem hname.driveSep_notMem
  have hhead : name.head? ≠ some dirSep := fun h => hname.dirSep_notMem (mem_of_mem_head? h)
  have htake : ∀ {p : Path}, p = slash base name → p.take (maxPathname - 1) = slash base name := by
    rintro p rfl
    exact take_of_length_le (by omega)
  unfold joinPath
  simp only [hunix, hhead, or_false]
  split
  · exact htake (by rw [slash, if_pos (by assumption)])
  · exact htake (by rw [slash, if_neg (by assumption)])

theorem mergePath_eq_slash (hbase : Absolute driveSep base) (hname : Proper driveSep name)
    (hlen : (slash base name).length < maxPathname) : mergePath driveSep base name = slash base name := by
  have hunix : getUnixPath driveSep name = name := getUnixPath_of_notMem hname.driveSep_notMem
  unfold mergePath
  simp only [hunix]
  rw [if_neg (take_ne_of_absolute hbase hname), joinPath_eq_slash hname hlen, rdropWhile_eq_self_iff]
  intro hne hlast
  have hmem : some ((slash base name).getLast hne) = name.getLast? := by
    rw [← getLast?_eq_some_getLast, slash_eq, getLast?_append_of_ne_nil _ hname.ne_nil]
  rw [of_decide_eq_true hlast] at hmem
  exact hname.dirSep_notMem (mem_of_getLast? hmem.symm)

theorem skipped_eq (hname : Proper driveSep name) : skipped name = decide (name = step13Dir) := by
  simp [skipped, hname.ne_thisDir, hname.ne_prevDir]

section
variable (hbase : Absolute driveSep base) (hwf : d.WellFormed driveSep)
  (hlen : ∀ p ∈ d.paths base, p.length < maxPathname)
include hbase hwf hlen

theorem Dir.walk_sublist : ((d.walk driveSep base).map Visit.path).Sublist (d.paths base) := by
  induction d generalizing base with
  | nil => exact List.Sublist.refl _
  | other name rest ih => exact ih hbase hwf.2.2 hlen
  | file name rest ih =>
    have hrest := ih hbase hwf.2.2 fun p hp => hlen p (mem_append_left _ hp)
    rw [walk, map_append, map_cons, mergePath_eq_slash hbase hwf.1 (hlen _ (by simp [paths]))]
    exact hrest.append_right _
  | dir name sub rest ihsub ihrest =>
    have hrest := ihrest hbase hwf.2.2.2 fun p hp => hlen p (mem_append_left _ hp)
    have hsub := ihsub (hbase.slash hwf.1) hwf.2.2.1 fun p hp => hlen p (by simp [paths, hp])
    rw [walk, map_append, mergePath_eq_slash hbase hwf.1 (hlen _ (by simp [paths]))]
    apply hrest.append
    split
    · exact nil_sublist _
    · exact hsub.cons_cons _

theorem Dir.walk_eq (hown : d.NoStep13Dir) (target : Path) :
    d.walk driveSep base = (d.entries base target).map Entry.visit := by
  induction d generalizing base target with
  | nil => rfl
  | other name rest ih => exact ih hbase hwf.2.2 hlen hown target
  | file name rest ih =>
    have hrest := ih hbase hwf.2.2 (fun p hp => hlen p (mem_append_left _ hp)) hown target
    rw [walk, entries, hrest, mergePath_eq_slash hbase hwf.1 (hlen _ (by simp [paths])), map_append]
    rfl
  | dir name sub rest ihsub ihrest =>
    have hrest := ihrest hbase hwf.2.2.2 (fun p hp => hlen p (mem_append_left _ hp)) hown.2.2 target
    have hsub := ihsub (hbase.slash hwf.1) hwf.2.2.1 (fun p hp => hlen p (by simp [paths, hp])) hown.2.1
      (Step13.slash target name)
    rw [walk, entries, hrest, mergePath_eq_slash hbase hwf.1 (hlen _ (by simp [paths])), map_append,
      hsub, skipped_eq hwf.1, if_neg (by simpa using hown.1)]
    rfl

theorem Dir.noStep13Dir_of_length_le (h : (d.paths base).length ≤ (d.walk driveSep base).length) : d.NoStep13Dir := by
  induction d generalizing base with
  | nil => trivial
  | other name rest ih => exact ih hbase hwf.2.2 hlen h
  | file name rest ih =>
    apply ih hbase hwf.2.2 fun p hp => hlen p (mem_append_left _ hp)
    simpa [walk, paths] using h
  | dir name sub rest ihsub ihrest =>
    have hlenRest : ∀ p ∈ rest.paths base, p.length < maxPathname :=
      fun p hp => hlen p (mem_append_left _ hp)
    have hlenSub : ∀ p ∈ sub.paths (slash base name), p.length < maxPathname :=
      fun p hp => hlen p (by simp [paths, hp])
    have hbase' := hbase.slash hwf.1
    have hrest := (walk_sublist hbase hwf.2.2.2 hlenRest).length_le
    have hsub := (walk_sublist hbase' hwf.2.2.1 hlenSub).length_le
    rw [length_map] at hrest hsub
    rw [walk, paths, mergePath_eq_slash hbase hwf.1 (hlen _ (by simp [paths])), length_append,
      length_append, length_cons] at h
    by_cases hskip : skipped name = true
    · rw [if_pos hskip, length_nil] at h
      omega
    · rw [if_neg hskip, length_cons] at h
      rw [skipped_eq hwf.1, decide_eq_true_eq] at hskip
      exact ⟨hskip, ihsub hbase' hwf.2.2.1 hlenSub (by omega), ihrest hbase hwf.2.2.2 hlenRest (by omega)⟩

theorem Dir.mem_walk_iff (v : Visit) : v ∈ d.walk driveSep base ↔ d.Holds base v := by
  induction d generalizing base with
  | nil => simp [walk, Holds]
  | other name rest ih => exact ih hbase hwf.2.2 hlen
  | file name rest ih =>
    rw [walk, Holds, mem_append, mem_singleton, ih hbase hwf.2.2 fun p hp => hlen p (mem_append_left _ hp),
      mergePath_eq_slash hbase hwf.1 (hlen _ (by simp [paths])), or_comm]
  | dir name sub rest ihsub ihrest =>
    have hsub := ihsub (hbase.slash hwf.1) hwf.2.2.1 fun p hp => hlen p (by simp [paths, hp])
    rw [walk, Holds, mem_append, ihrest hbase hwf.2.2.2 fun p hp => hlen p (mem_append_left _ hp),
      mergePath_eq_slash hbase hwf.1 (hlen _ (by simp [paths])), skipped_eq hwf.1, or_comm]
    by_cases hown : name = step13Dir
    · simp [hown]
    · simp [hown, hsub]

omit hbase hwf hlen in
theorem Dir.enumLoop_eq {S : Type} {callback : S → Visit → ℤ × S} (hok : ∀ s v, 0 ≤ (callback s v).1) (s : S) :
    d.enumLoop driveSep (Prod.mk true) callback base s =
      (0, (d.walk driveSep base).foldl (fun s v => (callback s v).2) s) := by
  induction d generalizing base s with
  | nil => rfl
  | other name rest ih => exact ih s
  | file name rest ih =>
    simp only [enumLoop, ih, walk, foldl_append, if_neg (Int.not_lt.2 (hok _ _))]
    rfl
  | dir name sub rest ihsub ihrest =>
    simp only [enumLoop, ihrest, ihsub, walk, foldl_append, if_neg (Int.not_lt.2 (hok _ _))]
    split_ifs
    · rfl
    · rfl

/-- `enum_dir` calls the callback once for each file and directory, a directory before what is in it. -/
theorem enumDir_visits {S : Type} {callback : S → Visit → ℤ × S} (hok : ∀ s v, 0 ≤ (callback s v).1) (s : S) :
    ∃ visits : List Visit, d.enumDir driveSep (Prod.mk true) callback base s =
      (0, visits.foldl (fun s v => (callback s v).2) s) ∧
      (∀ v, v ∈ visits ↔ d.Holds base v) ∧ (visits.map Visit.path).Nodup ∧
      visits.Pairwise fun u v => ¬Above v.path u.path := by
  have hsub := Dir.walk_sublist hbase hwf hlen
  exact ⟨d.walk driveSep base, Dir.enumLoop_eq hok s, Dir.mem_walk_iff hbase hwf hlen,
    (Dir.nodup_paths hwf base).sublist hsub, pairwise_map.1 ((Dir.pairwise_paths hwf base).sublist hsub)⟩

omit hbase hwf hlen in
/-- The file `b`, and a directory `a` with the file `c` and a directory `.motor13`, which is skipped. -/
theorem enumDir_visits_nested :
    let d : Dir := .file [98] (.dir [97] (.file [99] (.dir step13Dir (.file [100] .nil) .nil)) .nil)
    d.WellFormed none ∧ ∃ visits : List Visit, d.enumDir none (Prod.mk true) (fun s v => (0, s ++ [v])) [dirSep] [] =
        (0, visits.foldl (fun s v => s ++ [v]) []) ∧
      (∀ v, v ∈ visits ↔ d.Holds [dirSep] v) ∧ (visits.map Visit.path).Nodup ∧
      visits.Pairwise fun u v => ¬Above v.path u.path := by
  have hproper : ∀ name ∈ [[97], [98], [99], [100], step13Dir], Proper none name := fun name hname =>
    have h : name ≠ [] ∧ dirSep ∉ name ∧ name ≠ thisDir ∧ name ≠ prevDir := by
      revert name
      decide
    ⟨h.1, h.2.1, nofun, h.2.2.1, h.2.2.2⟩
  have hwf : Dir.WellFormed none (.file [98] (.dir [97] (.file [99] (.dir step13Dir (.file [100] .nil) .nil)) .nil)) :=
    ⟨hproper _ (by decide), by decide, hproper _ (by decide), by decide, ⟨hproper _ (by decide), by decide,
      hproper _ (by decide), by decide, ⟨hproper _ (by decide), by decide, trivial⟩, trivial⟩, trivial⟩
  have hbase : Absolute none [dirSep] := rfl
  exact ⟨hwf, enumDir_visits hbase hwf (by decide) (fun _ _ => Int.le_refl 0) []⟩

end
end Walk
end Prj.Step13
