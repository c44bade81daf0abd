import Mathlib.Data.List.Perm.Subperm
import Prj.Step13.Classify

/-!
The marks are right for all sizes and times only if every entry finds its own counterpart.

Sizes and times of two values are enough to tell who wrote a mark. With one value for the entry that
wrote last and another one for everything else the mark is `UPDATED`, so the last one to write must be the
counterpart. With one value for a row and its counterpart and another one for everything else the mark is
`SYNCHRONISED` only if the counterpart found the row itself, as it was in the beginning.
-/
namespace Prj.Step13
open Prj.Base List Option

def bit (b : Bool) : FileStat := if b then ⟨1, 1, 1⟩ else ⟨0, 0, 0⟩

def rowsOf (num : Path → Bool) (listed : List Path) : List Row :=
  listed.map fun p => ⟨p, .file, (bit (num p)).ctime, (bit (num p)).mtime, (bit (num p)).size, [], [], [], 0, .na⟩

def tableOf (cfg : Config) (listed : List Path) (num st : Path → Bool) (vs : List Visit) : List Row :=
  (upsert cfg fun p => bit (st p)).run (unseen (rowsOf num listed)) vs

/-- The marks are right for all sizes and times of the two values. -/
def RightBits (cfg : Config) (listed : List Path) (es : List Entry) (vs : List Visit) : Prop :=
  ∀ num st, Right es (fun p => bit (st p)) (rowsOf num listed) (tableOf cfg listed num st vs)

section Bits
variable {cfg : Config} {listed : List Path} {num st : Path → Bool} {es : List Entry} {vs : List Visit}
  {e : Entry} {v w : Visit} {p : Path} {row : Row} {i : ℕ} {stat : Path → FileStat}

theorem bit_inj {a b : Bool} : bit a = bit b ↔ a = b := by
  cases a <;> cases b <;> decide

theorem toInt_bit (b : Bool) : (bit b).toInt = bit b := by
  cases b <;> decide

theorem map_path_rowsOf : (rowsOf num listed).map Row.path = listed := by
  rw [rowsOf, List.map_map]
  exact map_id listed

theorem narrow_of_mem_rowsOf (h : row ∈ rowsOf num listed) : row.Narrow := by
  obtain ⟨p, -, rfl⟩ := mem_map.1 h
  simp only [Row.Narrow]
  cases num p <;> decide

theorem unseen_rowsOf (h : (unseen (rowsOf num listed))[i]? = some row) :
    listed[i]? = some row.path ∧ row.fileStat = bit (num row.path) ∧ row.stat = .removed := by
  rw [unseen, rowsOf, List.map_map, getElem?_map, map_eq_some_iff] at h
  obtain ⟨p, hp, rfl⟩ := h
  refine ⟨hp, ?_, rfl⟩
  simp only [Function.comp_apply, fileStat_copied]
  exact toInt_bit (num p)

theorem exists_unseen_rowsOf (num : Path → Bool) (h : listed[i]? = some p) :
    ∃ row, (unseen (rowsOf num listed))[i]? = some row ∧ row.path = p := by
  have hlt : i < (unseen (rowsOf num listed)).length := by
    rw [unseen, rowsOf, length_map, length_map]
    exact (List.getElem?_eq_some_iff.1 h).1
  have hrow := getElem?_eq_getElem hlt
  exact ⟨_, hrow, some.inj ((unseen_rowsOf hrow).1.symm.trans h)⟩

theorem fileStat_new : ((upsert cfg fun p => bit (st p)).new v).fileStat = bit (st v.path) := by
  have h : ((bit (st v.path)).toInt).toInt = bit (st v.path) := by rw [toInt_bit, toInt_bit]
  exact h

theorem fileStat_put (r r' : Row) :
    ((upsert cfg fun p => bit (st p)).put v r r').fileStat = bit (st v.path) := @fileStat_new cfg st v

theorem RightBits.stat_eq (h : RightBits cfg listed es vs) (num st : Path → Bool) (hi : listed[i]? = some p) :
    ∃ r, (tableOf cfg listed num st vs)[i]? = some r ∧ r.stat = match es.find? fun e => e.target = p with
        | none => .removed
        | some e => if st e.source = num p then .synchronised else .updated := by
  have hrow : (rowsOf num listed)[i]? = some ⟨p, .file, (bit (num p)).ctime, (bit (num p)).mtime,
      (bit (num p)).size, [], [], [], 0, .na⟩ := by
    rw [rowsOf, getElem?_map, hi, map_some]
  obtain ⟨r, hr, -, hstat⟩ := (h num st).1 i _ hrow
  refine ⟨r, hr, hstat.trans ?_⟩
  unfold verdict
  cases es.find? fun e => e.target = p with
  | none => rfl
  | some e =>
    have hbit : bit (st e.source) = ⟨(bit (num p)).size, (bit (num p)).mtime, (bit (num p)).ctime⟩ ↔
        st e.source = num p := bit_inj
    simp only [hbit]

theorem RightBits.stat_eq_of_mem (h : RightBits cfg listed es vs) (htargets : (es.map Entry.target).Nodup)
    (he : e ∈ es) (hi : listed[i]? = some e.target) (num st : Path → Bool) :
    ∃ r, (tableOf cfg listed num st vs)[i]? = some r ∧
      r.stat = if st e.source = num e.target then .synchronised else .updated := by
  obtain ⟨r, hr, hstat⟩ := h.stat_eq num st hi
  rw [Lib13.find?_of_nodup htargets he] at hstat
  exact ⟨r, hr, hstat⟩

theorem keys_unseen_rowsOf (stat : Path → FileStat) : (unseen (rowsOf num listed)).map (upsert cfg stat).key = listed :=
  map_path_unseen.trans map_path_rowsOf

theorem stat_put_ne_added (v : Visit) (r r' : Row) : ((upsert cfg stat).put v r r').stat ≠ .added := by
  simp only [upsert, setRow]
  split <;> simp

theorem RightBits.not_unhit (h : RightBits cfg listed es vs) (htargets : (es.map Entry.target).Nodup)
    (he : e ∈ es) (hi : listed[i]? = some e.target) : ¬ (lookup cfg).Unhit listed vs i := by
  intro hun
  obtain ⟨row, hrow, -⟩ := exists_unseen_rowsOf (fun _ => false) hi
  obtain ⟨r, hr, hstat⟩ := h.stat_eq_of_mem htargets he hi (fun _ => false) (fun _ => false)
  have hsame : (tableOf cfg listed (fun _ => false) (fun _ => false) vs)[i]? = some row := by
    apply Upsert.run_getElem?_of_unhit hrow
    rwa [keys_unseen_rowsOf]
  obtain rfl : r = row := some.inj (hr.symm.trans hsame)
  rw [(unseen_rowsOf hrow).2.2] at hstat
  simp at hstat

variable {pre post : List Visit}

/-- The visit `v` is the last one to find row `i`. -/
structure LastHit (cfg : Config) (listed : List Path) (i : ℕ) (vs pre : List Visit) (v : Visit) (post : List Visit) :
    Prop where
  split : vs = pre ++ v :: post
  hits : (lookup cfg).Hits ((lookup cfg).growAll listed pre) v i
  unhit : (lookup cfg).Unhit ((lookup cfg).grow ((lookup cfg).growAll listed pre) v) post i

theorem exists_last_put (num st : Path → Bool) (hlast : LastHit cfg listed i vs pre v post) :
    ∃ r r', (upsert cfg fun p => bit (st p)).find (tableOf cfg listed num st pre) v = some r ∧
      (tableOf cfg listed num st vs)[i]? = some ((upsert cfg fun p => bit (st p)).put v r r') := by
  obtain ⟨rfl, hhit, hpost⟩ := hlast
  apply Upsert.run_getElem?_of_last_hit
  all_goals rwa [keys_unseen_rowsOf]

theorem stat_put (r r' : Row) : ((upsert cfg fun p => bit (st p)).put v r r').stat =
    if bit (st v.path) = r.fileStat then .synchronised else .updated := by
  simp only [upsert, setRow, ne_eq, ite_not]

theorem path_ne_of_mem (hvisits : (vs.map Visit.path).Nodup)
    (hsplit : vs = pre ++ v :: post) (hw : w ∈ pre) : w.path ≠ v.path := by
  rw [hsplit, map_append] at hvisits
  exact (nodup_append.1 hvisits).2.2 w.path (mem_map_of_mem hw) v.path mem_cons_self

section
variable (h : RightBits cfg listed es vs)
include h

theorem RightBits.path_eq_of_last (htargets : (es.map Entry.target).Nodup)
    (hvisits : (vs.map Visit.path).Nodup) (he : e ∈ es) (hi : listed[i]? = some e.target)
    (hlast : LastHit cfg listed i vs pre v post) : v.path = e.source := by
  by_contra hne
  -- the value of `v` is one, all others are zero
  let st : Path → Bool := fun p => p = v.path
  have hst : ∀ w ∈ pre, st w.path = false := fun w hw =>
    decide_eq_false (path_ne_of_mem hvisits hlast.split hw)
  have hzero : ∀ row ∈ tableOf cfg listed (fun _ => false) st pre, row.fileStat = bit false := by
    refine Upsert.forall_mem_run ?_ ?_ ?_
    · intro row hrow
      obtain ⟨j, hj⟩ := mem_iff_getElem?.1 hrow
      exact (unseen_rowsOf hj).2.1
    · intro w hw s s' _
      rw [fileStat_put, hst w hw]
    · intro w hw
      rw [fileStat_new, hst w hw]
  obtain ⟨r, r', hfind, hput⟩ := exists_last_put (fun _ => false) st hlast
  obtain ⟨s, hs, hstat⟩ := h.stat_eq_of_mem htargets he hi (fun _ => false) st
  obtain rfl := some.inj (hs.symm.trans hput)
  have hself : st v.path = true := decide_eq_true rfl
  have hother : st e.source = false := decide_eq_false fun heq => hne heq.symm
  rw [stat_put, hzero r (mem_of_find?_eq_some hfind), hself, hother] at hstat
  simp [bit] at hstat

section
variable (hlisted : listed.Nodup) (htargets : (es.map Entry.target).Nodup) (hvisits : (vs.map Visit.path).Nodup)
  (he : e ∈ es) (hi : listed[i]? = some e.target)
include hlisted htargets hvisits he hi

theorem RightBits.selected_of_last (hlast : LastHit cfg listed i vs pre v post) (hv : v.path = e.source) :
    (lookup cfg).selected ((lookup cfg).growAll listed pre) v = some e.target ∧ (lookup cfg).Unhit listed pre i := by
  -- the value of the path and its counterpart is zero, all others are one
  let num : Path → Bool := fun p => p ≠ e.target
  let st : Path → Bool := fun p => p ≠ e.source
  have hst : ∀ w ∈ pre, st w.path = true := fun w hw =>
    decide_eq_true (hv ▸ path_ne_of_mem hvisits hlast.split hw)
  obtain ⟨r, r', hfind, hput⟩ := exists_last_put num st hlast
  obtain ⟨s, hs, hstat⟩ := h.stat_eq_of_mem htargets he hi num st
  obtain rfl := some.inj (hs.symm.trans hput)
  have hzero : r.fileStat = bit false := by
    have hself : st v.path = false := decide_eq_false fun hne => hne hv
    have hcounter : st e.source = num e.target := by simp [st, num]
    rw [stat_put, if_pos hcounter, hself] at hstat
    by_contra hne
    rw [if_neg fun heq => hne heq.symm] at hstat
    cases hstat
  obtain ⟨k, hk⟩ := mem_iff_getElem?.1 (mem_of_find?_eq_some hfind)
  have hone : ¬ bit true = bit false := by decide
  obtain ⟨hfirst, hun⟩ := Upsert.getElem?_of_run (B := fun row => row.fileStat = bit false)
    (fun w hw s s' => by rw [fileStat_put, hst w hw]; exact hone)
    (fun w hw => by rw [fileStat_new, hst w hw]; exact hone) hk hzero
  rw [keys_unseen_rowsOf] at hun
  obtain ⟨hpath, hnum, -⟩ := unseen_rowsOf hfirst
  have htarget : r.path = e.target := by
    rw [hzero, bit_inj] at hnum
    exact not_not.1 (of_decide_eq_false hnum.symm)
  rw [htarget] at hpath
  obtain rfl : i = k :=
    (List.getElem?_inj (List.getElem?_eq_some_iff.1 hi).1 hlisted).1 (hi.trans hpath.symm)
  refine ⟨?_, hun⟩
  have hsel := Upsert.selected_of_find hfind
  have hkeys : (tableOf cfg listed num st pre).map (upsert cfg fun p => bit (st p)).key =
      (lookup cfg).growAll listed pre := by
    rw [tableOf, Upsert.map_key_run, keys_unseen_rowsOf]
  rw [hkeys] at hsel
  rw [hsel, ← htarget]
  rfl

theorem RightBits.exists_split : ∃ pre v post, LastHit cfg listed i vs pre v post ∧ v.path = e.source ∧
      (lookup cfg).selected ((lookup cfg).growAll listed pre) v = some e.target ∧ (lookup cfg).Unhit listed pre i := by
  obtain ⟨pre, v, post, hsplit, hhit, hpost⟩ := Lookup.exists_last_hit (h.not_unhit htargets he hi)
  have hlast : LastHit cfg listed i vs pre v post := ⟨hsplit, hhit, hpost⟩
  have hv := h.path_eq_of_last htargets hvisits he hi hlast
  exact ⟨pre, v, post, hlast, hv, h.selected_of_last hlisted htargets hvisits he hi hlast hv⟩

end

theorem RightBits.unhit_of_notMem (hi : listed[i]? = some p)
    (hp : p ∉ es.map Entry.target) : (lookup cfg).Unhit listed vs i := by
  obtain ⟨r, hr, hstat⟩ := h.stat_eq (fun _ => false) (fun _ => false) hi
  rw [find_target_of_notMem hp] at hstat
  obtain ⟨-, hun⟩ := Upsert.getElem?_of_run (B := fun row => row.stat = .removed)
    (fun v _ r r' => stat_put_ne_removed v r r') (fun v _ => by simp [upsert, newRow]) hr hstat
  rwa [keys_unseen_rowsOf] at hun

end

theorem getElem?_of_added {rows : List Row} (hvs : ∀ v ∈ vs, v.path ≠ p)
    (hrow : ((upsert cfg stat).run rows vs)[i]? = some row) (hadded : row.path = p ∧ row.stat = .added) :
    rows[i]? = some row ∧ (lookup cfg).Unhit (rows.map (upsert cfg stat).key) vs i := by
  refine Upsert.getElem?_of_run (B := fun row => row.path = p ∧ row.stat = .added) ?_ ?_ hrow hadded
  · intro v _ r r' hB
    exact stat_put_ne_added v r r' hB.2
  · intro v hv hB
    exact hvs v hv hB.1

theorem RightBits.exists_added (h : RightBits cfg listed es vs) (hvisits : (vs.map Visit.path).Nodup)
    (he : e ∈ es) (htarget : e.target ∉ listed) : ∃ pre v post, vs = pre ++ v :: post ∧ v.path = e.source ∧
      (lookup cfg).selected ((lookup cfg).growAll listed pre) v = none ∧
      (lookup cfg).Unhit ((lookup cfg).grow ((lookup cfg).growAll listed pre) v) post
        ((lookup cfg).growAll listed pre).length := by
  have hcount := (h (fun _ => false) (fun _ => false)).2 e he (by rwa [map_path_rowsOf])
  obtain ⟨r, hr, hdecide⟩ := countP_pos_iff.1 (by rw [hcount]; decide)
  have hadded : r.path = e.source ∧ r.stat = .added := of_decide_eq_true hdecide
  obtain ⟨k, hk⟩ := mem_iff_getElem?.1 hr
  have hfirst : ∀ {k : ℕ}, (unseen (rowsOf (fun _ => false) listed))[k]? ≠ some r := by
    intro k hk
    have hstat := (unseen_rowsOf hk).2.2
    rw [hadded.2] at hstat
    cases hstat
  obtain ⟨v, hv, hpath⟩ : ∃ v ∈ vs, v.path = e.source := by
    by_contra hno
    exact hfirst (getElem?_of_added (fun v hv hpath => hno ⟨v, hv, hpath⟩) hk hadded).1
  obtain ⟨pre, post, rfl⟩ := append_of_mem hv
  have hpre : ∀ w ∈ pre, w.path ≠ e.source := fun w hw => hpath ▸ path_ne_of_mem hvisits rfl hw
  have hpost : ∀ w ∈ post, w.path ≠ e.source := by
    intro w hw heq
    rw [map_append, map_cons] at hvisits
    have hnotMem := (nodup_cons.1 (nodup_append.1 hvisits).2.1).1
    exact hnotMem (hpath.trans heq.symm ▸ mem_map_of_mem hw)
  rw [tableOf, Upsert.run_append, Upsert.run_cons] at hk
  obtain ⟨hk, hun⟩ := getElem?_of_added hpost hk hadded
  rw [Upsert.map_key_touch, Upsert.map_key_run, keys_unseen_rowsOf] at hun
  refine ⟨pre, v, post, rfl, hpath, ?_⟩
  rcases Upsert.touch_cases hk with ⟨hk, -⟩ | ⟨s, s', -, -, -, rfl⟩ | ⟨hfind, rfl, -⟩
  · exact absurd (getElem?_of_added hpre hk hadded).1 hfirst
  · exact absurd hadded.2 (stat_put_ne_added v s s')
  · have hkeys : ((upsert cfg fun _ => bit false).run (unseen (rowsOf (fun _ => false) listed)) pre).map
        (upsert cfg fun _ => bit false).key = (lookup cfg).growAll listed pre := by
      rw [Upsert.map_key_run, keys_unseen_rowsOf]
    rw [← hkeys, Upsert.selected_map_key, hfind, length_map]
    rw [hkeys]
    exact ⟨rfl, hun⟩

end Bits

section Names
variable {cfg : Config} {listed added : List Path} {es : List Entry} {e : Entry} {i k : ℕ} {pre post : List Entry}

theorem split_unique {vs pre post pre' post' : List Visit} {v v' : Visit} (hvisits : (vs.map Visit.path).Nodup)
    (hsplit : vs = pre ++ v :: post) (hsplit' : vs = pre' ++ v' :: post') (hpath : v.path = v'.path) :
    pre = pre' ∧ v = v' ∧ post = post' := by
  have hv : v ∈ vs := by rw [hsplit]; simp
  have hv' : v' ∈ vs := by rw [hsplit']; simp
  obtain rfl : v = v' := inj_on_of_nodup_map hvisits hv hv' hpath
  have hnodup := List.Nodup.of_map _ hvisits
  rw [hsplit, nodup_append] at hnodup
  have hpre : v ∉ pre := fun hmem => hnodup.2.2 v hmem v mem_cons_self rfl
  have hpost : v ∉ post := (nodup_cons.1 hnodup.2.1).1
  exact (append_cons_inj_of_notMem hpre hpost).1 (hsplit.symm.trans hsplit')

theorem nodup_visits (hsources : (es.map Entry.source).Nodup) : ((es.map Entry.visit).map Visit.path).Nodup := by
  rw [List.map_map]
  exact hsources

theorem split_visits (hes : es = pre ++ e :: post) :
    es.map Entry.visit = pre.map Entry.visit ++ e.visit :: post.map Entry.visit := by
  rw [hes, map_append, map_cons]

section Right
variable (h : RightBits cfg listed es (es.map Entry.visit)) (hlisted : listed.Nodup)
  (hsources : (es.map Entry.source).Nodup) (htargets : (es.map Entry.target).Nodup)
  {pre post : List Entry} (hes : es = pre ++ e :: post)

include h hlisted hsources htargets hes

theorem RightBits.selected_of_mem (hi : listed[i]? = some e.target) :
    (lookup cfg).selected ((lookup cfg).growAll listed (pre.map Entry.visit)) e.visit = some e.target := by
  have he : e ∈ es := by rw [hes]; simp
  obtain ⟨pre', v, post', hlast, hv, hsel, -⟩ := h.exists_split hlisted htargets (nodup_visits hsources) he hi
  obtain ⟨rfl, rfl, -⟩ := split_unique (nodup_visits hsources) hlast.split (split_visits hes) hv
  exact hsel

theorem RightBits.unhit_of_selected_none
    (hsel : (lookup cfg).selected ((lookup cfg).growAll listed (pre.map Entry.visit)) e.visit = none) :
    (lookup cfg).Unhit ((lookup cfg).grow ((lookup cfg).growAll listed (pre.map Entry.visit)) e.visit)
      (post.map Entry.visit) ((lookup cfg).growAll listed (pre.map Entry.visit)).length := by
  have he : e ∈ es := by rw [hes]; simp
  have htarget : e.target ∉ listed := by
    intro hmem
    obtain ⟨i, hi⟩ := mem_iff_getElem?.1 hmem
    rw [h.selected_of_mem hlisted hsources htargets hes hi] at hsel
    cases hsel
  obtain ⟨pre', v, post', hsplit, hv, -, hun⟩ := h.exists_added (nodup_visits hsources) he htarget
  obtain ⟨rfl, rfl, rfl⟩ := split_unique (nodup_visits hsources) hsplit (split_visits hes) hv
  exact hun

theorem RightBits.eq_of_hits (hi : listed[i]? = some e.target)
    (hhit : (lookup cfg).Hits ((lookup cfg).growAll listed (pre.map Entry.visit)) e.visit k) : k = i := by
  have hvisits := nodup_visits hsources
  have he : e ∈ es := by rw [hes]; simp
  by_cases hlt : k < listed.length
  · have hk : listed[k]? = some listed[k] := getElem?_eq_getElem hlt
    by_cases hp : listed[k] ∈ es.map Entry.target
    · obtain ⟨e', he', htarget⟩ := mem_map.1 hp
      rw [← htarget] at hk
      obtain ⟨pre', v, post', hlast, hv, -, hpre⟩ := h.exists_split hlisted htargets hvisits he' hk
      obtain ⟨-, rfl, -⟩ := Lookup.split_eq_of_hits ((split_visits hes).symm.trans hlast.split) hhit hpre hlast.unhit
      obtain rfl : e = e' := inj_on_of_nodup_map hsources he he' hv
      exact (List.getElem?_inj hlt hlisted).1 (hk.trans hi.symm)
    · have hun := h.unhit_of_notMem hk hp
      rw [split_visits hes] at hun
      exact absurd hhit (Lookup.not_hits_of_unhit hun)
  · -- a row that was added before
    obtain ⟨pre1, w, pre2, hpre, hsel, hlen⟩ := Lookup.exists_appended (Nat.le_of_not_lt hlt) hhit.lt
    obtain ⟨as, bs, rfl, rfl, hbs⟩ := map_eq_append_iff.1 hpre
    obtain ⟨e', cs, rfl, rfl, rfl⟩ := map_eq_cons_iff.1 hbs
    have hes' : es = as ++ e' :: (cs ++ e :: post) := by rw [hes]; simp
    have hun := h.unhit_of_selected_none hlisted hsources htargets hes' hsel
    rw [hlen, map_append] at hun
    rw [hpre, Lookup.growAll_append, Lookup.growAll_cons] at hhit
    exact absurd hhit (Lookup.not_hits_of_unhit hun)

theorem RightBits.filter_like (hi : listed[i]? = some e.target) :
    ((lookup cfg).growAll listed (pre.map Entry.visit)).filter (cfg.like e.target) = [e.target] := by
  have hsel := h.selected_of_mem hlisted hsources htargets hes hi
  have hone : ∀ (k : ℕ) p, ((lookup cfg).growAll listed (pre.map Entry.visit))[k]? = some p →
      cfg.like e.target p = true → k = i := by
    intro k p hk hlike
    exact h.eq_of_hits hlisted hsources htargets hes hi ⟨e.target, p, hsel, hk, hlike⟩
  have hlen := length_filter_le_one_iff.2 fun j k a b hj hk ha hb =>
    (hone j a hj ha).trans (hone k b hk hb).symm
  have hmem : e.target ∈ ((lookup cfg).growAll listed (pre.map Entry.visit)).filter (cfg.like e.target) :=
    mem_filter.2 ⟨mem_of_find?_eq_some hsel, cfg.like_self _⟩
  obtain ⟨p, hp⟩ := length_eq_one_iff.1 (Nat.le_antisymm hlen (length_pos_of_mem hmem))
  rw [hp, mem_singleton] at hmem
  rw [hp, hmem]

end Right

theorem RightBits.separate (h : RightBits cfg listed es (es.map Entry.visit)) (hlisted : listed.Nodup)
    (hsources : (es.map Entry.source).Nodup) (htargets : (es.map Entry.target).Nodup) (hes : es = pre ++ post)
    (hgrow : (lookup cfg).growAll listed (pre.map Entry.visit) = listed ++ added) : Separate cfg listed added post := by
  induction post generalizing pre added with
  | nil => trivial
  | cons e post ih =>
    have hsnoc : es = (pre ++ [e]) ++ post := by rw [hes]; simp
    have hstep : (lookup cfg).growAll listed ((pre ++ [e]).map Entry.visit) =
        (lookup cfg).grow (listed ++ added) e.visit := by
      rw [map_append, Lookup.growAll_append, hgrow]
      rfl
    by_cases htarget : e.target ∈ listed
    · obtain ⟨i, hi⟩ := mem_iff_getElem?.1 htarget
      have hsel := h.selected_of_mem hlisted hsources htargets hes hi
      have hfilter := h.filter_like hlisted hsources htargets hes hi
      rw [hgrow] at hsel hfilter
      rw [Separate, if_pos htarget, if_pos htarget]
      refine ⟨?_, ih hsnoc ?_⟩
      · rw [found, hsel]
        exact hfilter
      · rw [hstep, Lookup.grow_of_some hsel]
    · have he : e ∈ es := by rw [hes]; simp
      obtain ⟨pre', v, post', hsplit, hv, hsel, -⟩ := h.exists_added (nodup_visits hsources) he htarget
      obtain ⟨rfl, rfl, -⟩ := split_unique (nodup_visits hsources) hsplit (split_visits hes) hv
      rw [hgrow] at hsel
      rw [Separate, if_neg htarget, if_neg htarget]
      refine ⟨found_eq_nil_iff.2 hsel, ih hsnoc ?_⟩
      rw [hstep, Lookup.grow_of_none hsel, append_assoc]
      rfl

end Names

section Trees
variable {cfg : Config} {tree : SourceTree cfg} {listed : List Path}

theorem SourceTree.nodup_walk (tree : SourceTree cfg) : ((cfg.walk tree.dir).map Visit.path).Nodup :=
  (Dir.nodup_paths tree.wellFormed _).sublist (Dir.walk_sublist tree.absolute tree.wellFormed tree.length_lt)

theorem RightBits.noStep13Dir (h : RightBits cfg listed tree.entries (cfg.walk tree.dir))
    (hlisted : listed.Nodup) : tree.dir.NoStep13Dir := by
  apply Dir.noStep13Dir_of_length_le tree.absolute tree.wellFormed tree.length_lt
  have hvisited : ∀ e ∈ tree.entries, e.source ∈ (cfg.walk tree.dir).map Visit.path := by
    intro e he
    by_cases htarget : e.target ∈ listed
    · obtain ⟨i, hi⟩ := mem_iff_getElem?.1 htarget
      obtain ⟨pre, v, post, hlast, hv, -⟩ := h.exists_split hlisted tree.nodup_targets tree.nodup_walk he hi
      rw [hlast.split, ← hv]
      simp
    · obtain ⟨pre, v, post, hsplit, hv, -⟩ := h.exists_added tree.nodup_walk he htarget
      rw [hsplit, ← hv]
      simp
  have hsub : tree.dir.paths cfg.source ⊆ (cfg.walk tree.dir).map Visit.path := by
    rw [← (Dir.map_entries _ _ cfg.root).1]
    intro p hp
    obtain ⟨e, he, rfl⟩ := mem_map.1 hp
    exact hvisited e he
  have hle := (subperm_of_subset (Dir.nodup_paths tree.wellFormed _) hsub).length_le
  rwa [length_map] at hle

theorem legible_rowsOf {num st : Path → Bool} {es : List Entry} :
    Legible es (fun p => bit (st p)) (rowsOf num listed) := by
  intro row hrow e _ _
  have hnarrow := narrow_of_mem_rowsOf hrow
  simp only [Row.fileStat, FileStat.toInt, hnarrow.1, hnarrow.2.1, hnarrow.2.2]

/-- The marks are right, as far as the numbers are read, if and only if every entry of the source finds
its own counterpart. -/
theorem classifies_iff {cfg : Config} (tree : SourceTree cfg) (listed : { paths : List Path // paths.Nodup }) :
    (∀ stat main old, main.map Row.path = listed.1 →
      (Classifies tree stat main old ↔ Legible tree.entries stat main)) ↔
      tree.dir.NoStep13Dir ∧ Separate cfg listed.1 [] tree.entries := by
  constructor
  · intro h
    have hbits : RightBits cfg listed.1 tree.entries (cfg.walk tree.dir) := by
      intro num st
      have hclass := (h (fun p => bit (st p)) (rowsOf num listed.1) [] map_path_rowsOf).2 legible_rowsOf
      exact classifies_iff_right.1 hclass
    have hown := hbits.noStep13Dir listed.2
    rw [tree.walk_eq hown] at hbits
    have hgrow : (lookup cfg).growAll listed.1 (([] : List Entry).map Entry.visit) = listed.1 ++ [] := by
      rw [append_nil, map_nil, Lookup.growAll_nil]
    exact ⟨hown, hbits.separate listed.2 tree.nodup_sources tree.nodup_targets rfl hgrow⟩
  · rintro ⟨hown, hseparate⟩ stat main old hmain
    rw [classifies_iff_right]
    apply right_iff_of_separate hown
    · rw [hmain]
      exact listed.2
    · rw [hmain]
      exact hseparate

end Trees

def wildTree : SourceTree plainConfig where
  dir := .file (ascii ['a', '_', 'b']) .nil
  absolute := rfl
  wellFormed := ⟨⟨by decide, by decide, by simp [plainConfig], by decide, by decide⟩, by decide, trivial⟩
  length_lt := by decide

def wildRow : Row := { plainRow with path := ascii ['/', 'r', '/', 'a', 'x', 'b'] }

/-- The name `a_b` is a pattern for `axb`, which is taken for a file of the source. -/
theorem not_classifies_wild : ¬ Classifies wildTree emptyStat [wildRow] [] := by
  rw [classifies_iff_right]
  intro h
  obtain ⟨r, hr, -, hstat⟩ := h.1 0 wildRow rfl
  have hactual : ((compared plainConfig emptyStat wildTree.dir [wildRow])[0]?).map Row.stat =
      some .synchronised := by decide
  rw [hr, map_some, hstat] at hactual
  cases hactual

end Prj.Step13
